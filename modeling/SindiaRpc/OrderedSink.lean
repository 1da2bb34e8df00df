import Mathlib.Data.List.Basic
import Mathlib.Data.List.Pairwise

/-!
# Several senders on one byte sink

A sink has received some bytes, and each pending sender still holds bytes of
its own. Senders push front to back, but nothing orders one sender against
another. The bytes arrive in the order of submission as long as a new sender is
only submitted while no pending one has bytes left: then at most one pending
sender can push at all.
-/
namespace SindiaRpc

structure Sink (α : Type*) where
  /-- Everything submitted, in order of submission. -/
  total : List α
  sent : List α
  pending : List (List α)

namespace Sink
variable {α : Type*}

def submit (xs : List α) (p : Sink α) : Sink α :=
  {p with total := p.total ++ xs, pending := p.pending ++ [xs]}

/-- Sender `i`, holding `a`, pushes its next `n` elements. -/
def push (i n : ℕ) (a : List α) (p : Sink α) : Sink α :=
  {p with sent := p.sent ++ a.take n, pending := p.pending.set i (a.drop n)}

def retire (i : ℕ) (p : Sink α) : Sink α := {p with pending := p.pending.eraseIdx i}

/-- No pending sender has anything left. -/
def Idle (p : Sink α) : Prop := ∀ a ∈ p.pending, a = []

/-- Of any two pending senders one is done. -/
structure Ordered (p : Sink α) : Prop where
  total : p.total = p.sent ++ p.pending.flatten
  single : p.pending.Pairwise fun a b => a = [] ∨ b = []

theorem Ordered.sent_prefix {p : Sink α} (h : p.Ordered) : p.sent <+: p.total :=
  ⟨_,h.total.symm⟩

theorem Idle.flatten {p : Sink α} (h : p.Idle) : p.pending.flatten = [] :=
  List.flatten_eq_nil_iff.mpr h

theorem Ordered.submit {p : Sink α} (h : p.Ordered) (hi : p.Idle) (xs : List α) :
    (p.submit xs).Ordered where
  total := by
    simp only [Sink.submit,List.flatten_append,List.flatten_singleton]
    rw [h.total,hi.flatten]
    simp
  single := List.pairwise_append.mpr ⟨h.single,List.pairwise_singleton _ _,
    fun a ha _ _ => Or.inl (hi a ha)⟩

/-- All other senders of an ordered sink are done when one of them is not. -/
theorem others_done {l : List (List α)} (h : l.Pairwise fun a b => a = [] ∨ b = [])
    {i : ℕ} {a : List α} (hi : l[i]? = some a) (ha : a ≠ []) :
    ∃ u v, l = u ++ a :: v ∧ u.length = i ∧ u.flatten = [] ∧ v.flatten = [] := by
  obtain ⟨hlt,hget⟩ := List.getElem?_eq_some_iff.mp hi
  have hsplit : l = l.take i ++ a :: l.drop (i + 1) := by
    rw [← hget,List.getElem_cons_drop,List.take_append_drop]
  rw [hsplit] at h
  obtain ⟨_,hv,huv⟩ := List.pairwise_append.mp h
  refine ⟨l.take i,l.drop (i + 1),hsplit,by rw [List.length_take]; omega,?_,?_⟩
  · rw [List.flatten_eq_nil_iff]
    exact fun b hb => (huv b hb a (by simp)).resolve_right ha
  · rw [List.flatten_eq_nil_iff]
    exact fun b hb => (List.rel_of_pairwise_cons hv hb).resolve_left ha

theorem Ordered.push {p : Sink α} (h : p.Ordered) {i n : ℕ} {a : List α}
    (hi : p.pending[i]? = some a) (ha : a ≠ []) : (p.push i n a).Ordered := by
  obtain ⟨u,v,hl,rfl,hu,hv⟩ := others_done h.single hi ha
  have hset : p.pending.set u.length (a.drop n) = u ++ a.drop n :: v := by
    rw [hl,List.set_append_right _ _ (Nat.le_refl _),Nat.sub_self,List.set_cons_zero]
  constructor
  · simp only [Sink.push,hset]
    rw [h.total,hl]
    simp [hu,hv]
  · have hs := h.single
    simp only [Sink.push,hset]
    rw [hl] at hs
    obtain ⟨h₁,h₂,h₃⟩ := List.pairwise_append.mp hs
    obtain ⟨h₄,h₅⟩ := List.pairwise_cons.mp h₂
    have hu' := List.flatten_eq_nil_iff.mp hu
    have hv' := List.flatten_eq_nil_iff.mp hv
    exact List.pairwise_append.mpr ⟨h₁,List.pairwise_cons.mpr ⟨fun b hb => Or.inr (hv' b hb),h₅⟩,
      fun b hb _ _ => Or.inl (hu' b hb)⟩

theorem Ordered.retire {p : Sink α} (h : p.Ordered) {i : ℕ} (hi : p.pending[i]? = some []) :
    (p.retire i).Ordered := by
  obtain ⟨hlt,hget⟩ := List.getElem?_eq_some_iff.mp hi
  have hsplit : p.pending = p.pending.take i ++ [] :: p.pending.drop (i + 1) := by
    rw [← hget,List.getElem_cons_drop,List.take_append_drop]
  refine ⟨?_,h.single.sublist (List.eraseIdx_sublist _ _)⟩
  simp only [Sink.retire,List.eraseIdx_eq_take_drop_succ]
  rw [h.total]
  conv_lhs => rw [hsplit]
  simp

end Sink
end SindiaRpc
