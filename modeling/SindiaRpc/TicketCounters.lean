import SindiaRpc.ListUpdates

/-!
# Tickets from a wrapping counter

A counter modulo `M` is incremented for every ticket drawn, and the drawer
takes the new value. Drawers are numbered; a drawer holds no ticket or one. As
long as there are fewer than `M` drawers the tickets differ.
-/
namespace SindiaRpc.TicketCounters
open ListUpdates

/-- `n` is the counter and `held` the drawers with their tickets. -/
structure Drawn (n : ℕ) (held : List (Option ℕ)) : Prop where
  count : n = held.countP Option.isSome
  le : ∀ i x : ℕ, held[i]? = some (some x) → x ≤ n
  distinct : ∀ i j x : ℕ, held[i]? = some (some x) → held[j]? = some (some x) → i = j

namespace Drawn
variable {M n : ℕ} {held : List (Option ℕ)}

theorem nil : Drawn 0 [] := by
  refine ⟨rfl,?_,?_⟩
  · intro i x h
    cases h
  · intro i j x h
    cases h

/-- One more drawer, without a ticket yet. -/
theorem join (h : Drawn n held) : Drawn n (held ++ [none]) := by
  have old : ∀ {i x : ℕ}, (held ++ [none])[i]? = some (some x) → held[i]? = some (some x) := by
    intro i x hi
    rcases getElem?_concat_cases hi with hi | ⟨_,hi⟩
    · exact hi
    · cases hi
  refine ⟨?_,?_,?_⟩
  · rw [h.count]
    simp
  · intro i x hi
    exact h.le i x (old hi)
  · intro i j x hi hj
    exact h.distinct i j x (old hi) (old hj)

theorem count_lt (h : Drawn n held) {i : ℕ} (hi : held[i]? = some none) : n < held.length := by
  rw [h.count]
  apply Nat.lt_of_le_of_ne List.countP_le_length
  intro hall
  have hsome := List.countP_eq_length.mp hall none (List.mem_of_getElem? hi)
  cases hsome

/-- The next ticket differs from all the others. -/
theorem draw (h : Drawn n held) {i : ℕ} (hi : held[i]? = some none) (hM : held.length < M) :
    Drawn ((n + 1) % M) (held.set i (some ((n + 1) % M))) := by
  have hlt := h.count_lt hi
  obtain ⟨hlen,hget⟩ := List.getElem?_eq_some_iff.mp hi
  rw [Nat.mod_eq_of_lt (by omega)]
  have cases_set : ∀ {j x : ℕ}, (held.set i (some (n + 1)))[j]? = some (some x) →
      (j = i ∧ x = n + 1) ∨ (j ≠ i ∧ held[j]? = some (some x)) := by
    intro j x hj
    rcases getElem?_set_cases hj with ⟨hji,hx⟩ | hj
    · exact Or.inl ⟨hji,Option.some.inj hx⟩
    · exact Or.inr hj
  refine ⟨?_,?_,?_⟩
  · rw [List.countP_set hlen,hget,h.count]
    simp
  · intro j x hj
    rcases cases_set hj with ⟨_,rfl⟩ | ⟨_,hj⟩
    · exact Nat.le_refl _
    · exact Nat.le_succ_of_le (h.le j x hj)
  · intro j k x hj hk
    rcases cases_set hj with ⟨rfl,rfl⟩ | ⟨_,hj⟩
    · rcases cases_set hk with ⟨rfl,_⟩ | ⟨_,hk⟩
      · rfl
      · have := h.le k _ hk
        omega
    · rcases cases_set hk with ⟨_,rfl⟩ | ⟨_,hk⟩
      · have := h.le j _ hj
        omega
      · exact h.distinct j k x hj hk

end Drawn
end SindiaRpc.TicketCounters
