import Mathlib.Data.List.AList
import Mathlib.Logic.Function.Basic

/-!
# Tables of promises

A promise and its future share a state, named here by a token: pending until it
is given a value, or broken when the promise is destroyed first. A table holds
promises under keys. Assigning to an occupied key and erasing a key destroy the
promise that was there; giving a value to a promise that has one is an error.
-/
namespace SindiaRpc.PromiseTables

inductive Shared (ν : Type*) where
  | pending
  | value (v : ν)
  | broken
  deriving DecidableEq, Repr

/-- What a future sees once its promise is destroyed. -/
def Shared.abandoned {ν : Type*} : Shared ν → Shared ν
  | .pending => .broken
  | s => s

structure PromiseTable (κ ν : Type*) where
  entries : AList fun _ : κ => ℕ := ∅
  states : ℕ → Shared ν := fun _ => .pending

namespace PromiseTable
variable {κ ν : Type*} (p : PromiseTable κ ν)

/-- Destruction of the promise with token `t`. -/
def abandon (t : ℕ) : PromiseTable κ ν :=
  {p with states := Function.update p.states t (p.states t).abandoned}

def fulfil (t : ℕ) (v : ν) : PromiseTable κ ν :=
  {p with states := Function.update p.states t (.value v)}

/-- `none` is the error of a second value. -/
def setValue (t : ℕ) (v : ν) : Option (PromiseTable κ ν) :=
  match p.states t with
  | .pending => some (p.fulfil t v)
  | _ => none

@[simp] theorem states_fulfil (t : ℕ) (v : ν) : (p.fulfil t v).states t = .value v :=
  Function.update_self _ _ _

theorem states_fulfil_of_ne {t u : ℕ} (v : ν) (h : u ≠ t) :
    (p.fulfil t v).states u = p.states u :=
  Function.update_of_ne h _ _

/-- A value is given once, to a pending promise, and changes nothing else. -/
theorem setValue_eq_some {t : ℕ} {v : ν} {q : PromiseTable κ ν} : p.setValue t v = some q ↔
    p.states t = .pending ∧ q = p.fulfil t v := by
  unfold setValue
  split
  · rename_i h
    simp only [Option.some.injEq,h,true_and,eq_comm]
  · rename_i h
    constructor
    · intro hn
      cases hn
    · intro hp
      exact absurd hp.1 h

variable [DecidableEq κ]

/-- The token of the promise stored under a key. -/
def find (key : κ) : Option ℕ := p.entries.lookup key

/-- The promise under `key`, if there is one, is destroyed. -/
def discard (key : κ) : PromiseTable κ ν :=
  match p.find key with
  | none => p
  | some t => p.abandon t

def assign (key : κ) (t : ℕ) : PromiseTable κ ν :=
  {p.discard key with entries := p.entries.insert key t}

def erase (key : κ) : PromiseTable κ ν :=
  {p.discard key with entries := p.entries.erase key}

section Lemmas
variable {p} {key k : κ} {t u : ℕ} {v : ν}

@[simp] theorem find_fulfil : (p.fulfil t v).find k = p.find k := rfl

@[simp] theorem find_assign : (p.assign key t).find key = some t := AList.lookup_insert _

theorem find_assign_of_ne (h : k ≠ key) : (p.assign key t).find k = p.find k :=
  AList.lookup_insert_ne h

@[simp] theorem find_erase : (p.erase key).find key = none := AList.lookup_erase _ _

theorem find_erase_of_ne (h : k ≠ key) : (p.erase key).find k = p.find k :=
  AList.lookup_erase_ne h

theorem states_discard_of_ne (h : p.find key ≠ some u) :
    (p.discard key).states u = p.states u := by
  unfold discard
  split
  · rfl
  · rename_i t ht
    apply Function.update_of_ne
    intro hu
    exact h (hu ▸ ht)

/-- A promise that has been settled stays as it is. -/
theorem states_discard_of_settled (h : p.states u ≠ .pending) :
    (p.discard key).states u = p.states u := by
  unfold discard
  split
  · rfl
  · rename_i t ht
    by_cases hu : u = t
    · subst hu
      cases hs : p.states u with
      | pending => exact absurd hs h
      | value v => simp [abandon,hs,Shared.abandoned]
      | broken => simp [abandon,hs,Shared.abandoned]
    · simp [abandon,hu]

/-- Only a pending promise in the table is broken. -/
theorem states_discard_of_broken (h : (p.discard key).states u = .broken) :
    p.states u = .broken ∨ (p.find key = some u ∧ p.states u = .pending) := by
  by_cases hp : p.states u = .pending
  · right
    refine ⟨?_,hp⟩
    by_contra hfind
    rw [states_discard_of_ne hfind,hp] at h
    cases h
  · left
    rwa [states_discard_of_settled hp] at h

theorem states_discard_eq_value : (p.discard key).states u = .value v ↔ p.states u = .value v := by
  by_cases hp : p.states u = .pending
  · rw [hp]
    constructor
    · intro h
      unfold discard at h
      split at h
      · rwa [hp] at h
      · rename_i t ht
        by_cases hu : u = t
        · subst hu
          simp [abandon,hp,Shared.abandoned] at h
        · simp [abandon,hu,hp] at h
    · intro h
      cases h
  · rw [states_discard_of_settled hp]

/-- What happens to a promise under a key depends on the entry and on it
alone. -/
theorem states_discard_congr {q : PromiseTable κ ν} (hfind : p.find key = q.find key)
    (hst : p.states u = q.states u) : (p.discard key).states u = (q.discard key).states u := by
  unfold discard
  rw [← hfind]
  split
  · exact hst
  · rename_i t ht
    by_cases hu : u = t
    · subst hu
      simp [abandon,hst]
    · simp [abandon,hu,hst]

theorem states_assign : (p.assign key t).states = (p.discard key).states := rfl

theorem states_erase : (p.erase key).states = (p.discard key).states := rfl

end Lemmas
end PromiseTable
end SindiaRpc.PromiseTables
