import Mathlib.Data.List.Basic

/-!
# One element of a list changed or added

Tables that grow at the end and change in place are lists indexed by position.
These are the lookups after one such change.
-/
namespace SindiaRpc.ListUpdates

variable {α β : Type*} {l : List α} {t u : ℕ} {a b : α}

theorem getElem?_set_cases (h : (l.set t a)[u]? = some b) :
    (u = t ∧ b = a) ∨ (u ≠ t ∧ l[u]? = some b) := by
  rw [List.getElem?_set] at h
  split_ifs at h with htu hlt
  · exact Or.inl ⟨htu.symm,(Option.some.inj h).symm⟩
  · exact Or.inr ⟨Ne.symm htu,h⟩

theorem getElem?_set_of_eq_some (h : l[t]? = some b) : (l.set t a)[t]? = some a := by
  obtain ⟨hlt,_⟩ := List.getElem?_eq_some_iff.mp h
  rw [List.getElem?_set_self hlt]

theorem getElem?_concat_cases (h : (l ++ [a])[u]? = some b) :
    l[u]? = some b ∨ (u = l.length ∧ b = a) := by
  rw [List.getElem?_append] at h
  split_ifs at h with hlt
  · exact Or.inl h
  · right
    rw [List.getElem?_singleton] at h
    split_ifs at h with hz
    exact ⟨by omega,(Option.some.inj h).symm⟩

theorem getElem?_concat_of_eq_some (h : l[u]? = some b) : (l ++ [a])[u]? = some b := by
  obtain ⟨hlt,_⟩ := List.getElem?_eq_some_iff.mp h
  rw [List.getElem?_append_left hlt,h]

theorem forall_mem_set {p : α → Prop} (h : ∀ b ∈ l, p b) (ha : p a) : ∀ b ∈ l.set t a, p b := by
  intro b hb
  rcases List.mem_or_eq_of_mem_set hb with hb | rfl
  · exact h b hb
  · exact ha

theorem forall_mem_concat {p : α → Prop} (h : ∀ b ∈ l, p b) (ha : p a) :
    ∀ b ∈ l ++ [a], p b :=
  List.forall_mem_append.mpr ⟨h,List.forall_mem_singleton.mpr ha⟩

/-- An element changed in place keeps what `f` reads of it. -/
theorem map_set_same (f : α → β) (h : l[t]? = some a) (hf : f b = f a) :
    (l.set t b).map f = l.map f := by
  obtain ⟨hi,ha⟩ := List.getElem?_eq_some_iff.mp h
  apply List.ext_getElem?
  intro j
  simp only [List.getElem?_map,List.getElem?_set]
  split_ifs with hij
  · rw [← hij,h,Option.map_some,Option.map_some,hf]
  · rfl

end SindiaRpc.ListUpdates
