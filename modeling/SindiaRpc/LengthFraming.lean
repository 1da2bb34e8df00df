import Mathlib.Data.List.Basic

/-!
# Length-prefixed framing

A framing has headers of one fixed nonzero length, and a header either
announces the length of the body behind it or is refused. `split` is the
reference reader: it cuts complete frames off the front of a stream until what
is left is incomplete or starts with a refused header. That outcome is the only
one: a stream is in exactly one way frames followed by such a remainder.
-/
namespace SindiaRpc

structure Framing (α : Type*) where
  headLength : ℕ
  headLength_pos : 0 < headLength
  bodyLength : List α → Option ℕ

namespace Framing
variable {α : Type*} (F : Framing α)

def IsFrame (f : List α) : Prop :=
  ∃ n, F.bodyLength (f.take F.headLength) = some n ∧ f.length = F.headLength + n

/-- Shorter than the one complete frame it starts. -/
def Incomplete (r : List α) : Prop :=
  r.length < F.headLength ∨
    ∃ n, F.bodyLength (r.take F.headLength) = some n ∧ r.length < F.headLength + n

def Refused (r : List α) : Prop :=
  F.headLength ≤ r.length ∧ F.bodyLength (r.take F.headLength) = none

def Stuck (r : List α) : Prop := F.Incomplete r ∨ F.Refused r

/-- The first frame of a stream and what follows it. -/
def takeFrame (xs : List α) : Option (List α × List α) :=
  if xs.length < F.headLength then none else
    match F.bodyLength (xs.take F.headLength) with
    | none => none
    | some n =>
        if xs.length < F.headLength + n then none
        else some (xs.take (F.headLength + n),xs.drop (F.headLength + n))

theorem IsFrame.length_pos {F : Framing α} {f : List α} (h : F.IsFrame f) : 0 < f.length := by
  obtain ⟨n,_,hlen⟩ := h
  have := F.headLength_pos
  omega

theorem takeFrame_frame {f : List α} (h : F.IsFrame f) (xs : List α) :
    F.takeFrame (f ++ xs) = some (f,xs) := by
  obtain ⟨n,hbody,hlen⟩ := h
  have htake : (f ++ xs).take F.headLength = f.take F.headLength :=
    List.take_append_of_le_length (by omega)
  unfold takeFrame
  rw [if_neg (by rw [List.length_append]; omega),htake]
  simp only [hbody]
  rw [if_neg (by rw [List.length_append]; omega),← hlen,List.take_left,List.drop_left]

theorem takeFrame_some {xs f rest : List α} (h : F.takeFrame xs = some (f,rest)) :
    F.IsFrame f ∧ xs = f ++ rest := by
  unfold takeFrame at h
  split_ifs at h with hlt
  split at h
  · cases h
  · rename_i n hbody
    split_ifs at h with hshort
    obtain ⟨rfl,rfl⟩ := Prod.mk.inj (Option.some.inj h)
    refine ⟨⟨n,?_,?_⟩,(List.take_append_drop _ _).symm⟩
    · rw [List.take_take,Nat.min_eq_left (by omega)]
      exact hbody
    · rw [List.length_take]
      omega

theorem takeFrame_none {xs : List α} : F.takeFrame xs = none ↔ F.Stuck xs := by
  unfold takeFrame Stuck Incomplete Refused
  split_ifs with hlt
  · simp [hlt]
  · split
    · rename_i hbody
      simp only [hbody,true_iff]
      exact Or.inr ⟨by omega,trivial⟩
    · rename_i n hbody
      simp [hbody,hlt]

def split (xs : List α) : List (List α) × List α :=
  match _h : F.takeFrame xs with
  | none => ([],xs)
  | some (f,rest) => (f :: (split rest).1,(split rest).2)
termination_by xs.length
decreasing_by
  all_goals
    obtain ⟨hf,rfl⟩ := F.takeFrame_some _h
    have := hf.length_pos
    rw [List.length_append]
    omega

theorem split_stuck {r : List α} (h : F.Stuck r) : F.split r = ([],r) := by
  rw [split]
  split
  · rfl
  · rename_i f rest hsome
    rw [F.takeFrame_none.mpr h] at hsome
    cases hsome

theorem split_frame {f : List α} (h : F.IsFrame f) (xs : List α) :
    F.split (f ++ xs) = (f :: (F.split xs).1,(F.split xs).2) := by
  conv_lhs => rw [split]
  split
  · rename_i hnone
    rw [F.takeFrame_frame h] at hnone
    cases hnone
  · rename_i g rest hsome
    rw [F.takeFrame_frame h] at hsome
    obtain ⟨rfl,rfl⟩ := Prod.mk.inj (Option.some.inj hsome)
    rfl

/-- Frames are read back one by one, whatever follows them. -/
theorem split_flatten {fs : List (List α)} (h : ∀ f ∈ fs, F.IsFrame f) (xs : List α) :
    F.split (fs.flatten ++ xs) = (fs ++ (F.split xs).1,(F.split xs).2) := by
  induction fs with
  | nil => rfl
  | cons f fs ih =>
      have hf := h f (by simp)
      rw [List.flatten_cons,List.append_assoc,F.split_frame hf,ih fun g hg => h g (by simp [hg])]
      rfl

/-- Uniqueness of the decomposition. -/
theorem split_eq {xs r : List α} {fs : List (List α)} (hfs : ∀ f ∈ fs, F.IsFrame f)
    (hr : F.Stuck r) (h : xs = fs.flatten ++ r) : F.split xs = (fs,r) := by
  rw [h,F.split_flatten hfs,F.split_stuck hr,List.append_nil]

/-- Frames are a prefix code: what is sent so far fixes the frames it completes. -/
theorem prefix_of_flatten {fs gs : List (List α)} (hfs : ∀ f ∈ fs, F.IsFrame f)
    (hgs : ∀ g ∈ gs, F.IsFrame g) (h : fs.flatten <+: gs.flatten) : fs <+: gs := by
  induction fs generalizing gs with
  | nil => exact List.nil_prefix
  | cons f fs ih =>
      obtain ⟨r,hr⟩ := h
      rw [List.flatten_cons,List.append_assoc] at hr
      cases gs with
      | nil =>
          have hpos := (hfs f (by simp)).length_pos
          have hlen := congrArg List.length hr
          rw [List.length_append,List.flatten_nil,List.length_nil] at hlen
          omega
      | cons g gs =>
          -- both streams start with one frame
          have hone : some (f,fs.flatten ++ r) = some (g,gs.flatten) := by
            rw [← F.takeFrame_frame (hfs f (by simp)),hr,List.flatten_cons,
              F.takeFrame_frame (hgs g (by simp))]
          obtain ⟨rfl,hrest⟩ := Prod.mk.inj (Option.some.inj hone)
          rw [List.cons_prefix_cons]
          exact ⟨rfl,ih (fun f hf => hfs f (by simp [hf])) (fun g hg => hgs g (by simp [hg]))
            ⟨r,hrest⟩⟩

theorem stuck_nil : F.Stuck [] := Or.inl (Or.inl (by simpa using F.headLength_pos))

end Framing
end SindiaRpc
