import Mathlib.Data.List.Perm.Basic

/-!
# Items that wait for their turn

An outbox starts an item at once while nothing waits, and otherwise lets it wait
for the completion of an operation already started. A completion takes the next
item from the front, and a failed one drops all that wait. No item is lost or
doubled, something is active whenever an item waits, and an item that was
dropped is not started later.
-/
namespace SindiaRpc

structure Outbox (α : Type*) where
  accepted : List α
  started : List α
  waiting : List α
  dropped : List α
  /-- Operations started and not yet completed. -/
  active : ℕ

namespace Outbox
variable {α : Type*}

/-- Accepting an item, or completing an operation. -/
inductive Move (b : Outbox α) : Outbox α → Prop
  | stay : Move b b
  | start (x : α) (empty : b.waiting = []) : Move b {b with
      accepted := b.accepted ++ [x], started := b.started ++ [x], active := b.active + 1}
  | wait (x : α) (busy : b.waiting ≠ []) : Move b {b with
      accepted := b.accepted ++ [x], waiting := b.waiting ++ [x]}
  | finish (empty : b.waiting = []) : Move b {b with active := b.active - 1}
  | next (x : α) (rest : List α) (head : b.waiting = x :: rest) (one : 0 < b.active) :
      Move b {b with started := b.started ++ [x], waiting := rest}
  | clear : Move b {b with
      waiting := [], dropped := b.dropped ++ b.waiting, active := b.active - 1}

/-- Each accepted item is in one place, and none waits for nothing. -/
structure Sound (b : Outbox α) : Prop where
  placed : b.accepted.Perm (b.started ++ (b.waiting ++ b.dropped))
  served : b.waiting ≠ [] → 0 < b.active

/-- What `c` has started since `b`, and still holds, was waiting in `b` or
accepted after it. -/
structure Since (b c : Outbox α) (xs ws : List α) : Prop where
  started : c.started = b.started ++ xs
  accepted : c.accepted = b.accepted ++ ws
  from_waiting : (xs ++ c.waiting).Sublist (b.waiting ++ ws)

section Moves
variable {b c d : Outbox α} {xs ws : List α}

theorem Move.placed (h : Move b c) (hb : b.accepted.Perm (b.started ++ (b.waiting ++ b.dropped))) :
    c.accepted.Perm (c.started ++ (c.waiting ++ c.dropped)) := by
  cases h with
  | stay | finish _ => exact hb
  | start x empty =>
      rw [empty,List.nil_append] at hb ⊢
      have hadd := hb.append_right [x]
      refine hadd.trans ?_
      simp only [List.append_assoc]
      exact List.perm_append_comm.append_left _
  | wait x busy =>
      have hadd := hb.append_right [x]
      refine hadd.trans ?_
      simp only [List.append_assoc]
      exact (List.perm_append_comm.append_left _).append_left _
  | next x rest head one =>
      rw [head] at hb
      simpa using hb
  | clear =>
      refine hb.trans ?_
      exact List.perm_append_comm.append_left _

theorem Move.served (h : Move b c) (hb : b.waiting ≠ [] → 0 < b.active) :
    c.waiting ≠ [] → 0 < c.active := by
  cases h with
  | stay => exact hb
  | start x empty => exact fun _ => Nat.succ_pos _
  | wait x busy => exact fun _ => hb busy
  | finish empty => exact fun hne => absurd empty hne
  | next x rest head one => exact fun _ => one
  | clear => exact fun hne => absurd rfl hne

theorem Move.sound (h : Move b c) (hb : b.Sound) : c.Sound := ⟨h.placed hb.placed,h.served hb.served⟩

/-- Nothing waits unless something waited before. -/
theorem Move.waiting_nil (h : Move b c) (hb : b.waiting = []) : c.waiting = [] := by
  cases h with
  | stay | start _ _ | finish _ => exact hb
  | wait x busy => exact absurd hb busy
  | next x rest head one =>
      rw [hb] at head
      cases head
  | clear => rfl

theorem Since.refl (b : Outbox α) : Since b b [] [] :=
  ⟨(List.append_nil _).symm,(List.append_nil _).symm,by simp⟩

theorem Since.move (h : Since b c xs ws) (hm : Move c d) : ∃ xs' ws', Since b d xs' ws' := by
  have hsub := h.from_waiting
  cases hm with
  | stay | finish _ => exact ⟨xs,ws,h.started,h.accepted,hsub⟩
  | start x empty =>
      refine ⟨xs ++ [x],ws ++ [x],?_,?_,?_⟩
      · rw [h.started,List.append_assoc]
      · rw [h.accepted,List.append_assoc]
      · rw [empty,List.append_nil] at hsub ⊢
        rw [← List.append_assoc]
        exact hsub.append (List.Sublist.refl _)
  | wait x busy =>
      refine ⟨xs,ws ++ [x],h.started,?_,?_⟩
      · rw [h.accepted,List.append_assoc]
      · rw [← List.append_assoc,← List.append_assoc]
        exact hsub.append (List.Sublist.refl _)
  | next x rest head one =>
      refine ⟨xs ++ [x],ws,?_,h.accepted,?_⟩
      · rw [h.started,List.append_assoc]
      · rw [head] at hsub
        simpa using hsub
  | clear =>
      refine ⟨xs,ws,h.started,h.accepted,?_⟩
      exact ((List.Sublist.refl xs).append (List.nil_sublist _)).trans hsub

end Moves
end Outbox
end SindiaRpc
