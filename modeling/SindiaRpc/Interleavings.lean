import SindiaRpc.GuardedRuns
import Mathlib.Logic.Function.Basic

/-!
# A family of machines that take turns

The state of the family is a state of each member. An event belongs to one
member, and the rest of the family only decides whether it may happen. Seen from
one member, a run of the family is a run of that member.
-/
namespace SindiaRpc.Interleavings
open GuardedRuns

variable {ι σ ε : Type*} [DecidableEq ι]

section Step
variable (move : σ → ε → Option σ) (allowed : (ι → σ) → ι → ε → Prop)
  [∀ s a e, Decidable (allowed s a e)]

def step (s : ι → σ) (e : ι × ε) : Option (ι → σ) :=
  if allowed s e.1 e.2 then (move (s e.1) e.2).map (Function.update s e.1) else none

end Step

/-- The events of one member. -/
def eventsOf (a : ι) (es : List (ι × ε)) : List ε :=
  es.filterMap fun e => if e.1 = a then some e.2 else none

section Runs
variable {move : σ → ε → Option σ} {allowed : (ι → σ) → ι → ε → Prop}
  [∀ s a e, Decidable (allowed s a e)] {s t : ι → σ} {a b : ι} {e : ε} {es : List (ι × ε)}

theorem step_eq_some : step move allowed s (a,e) = some t ↔
    allowed s a e ∧ ∃ u, move (s a) e = some u ∧ t = Function.update s a u := by
  simp only [step,Option.ite_none_right_eq_some,Option.map_eq_some_iff,eq_comm (b := t)]

theorem eventsOf_same (a : ι) (e : ε) (es : List (ι × ε)) :
    eventsOf a ((a,e) :: es) = e :: eventsOf a es := by
  simp [eventsOf]

theorem eventsOf_other (h : b ≠ a) (e : ε) (es : List (ι × ε)) :
    eventsOf a ((b,e) :: es) = eventsOf a es := by
  simp [eventsOf,h]

theorem mem_eventsOf : e ∈ eventsOf a es ↔ (a,e) ∈ es := by
  constructor
  · intro h
    obtain ⟨⟨b,f⟩,hmem,hf⟩ := List.mem_filterMap.mp h
    simp only [Option.ite_none_right_eq_some,Option.some.injEq] at hf
    obtain ⟨rfl,rfl⟩ := hf
    exact hmem
  · exact fun h => List.mem_filterMap.mpr ⟨(a,e),h,if_pos rfl⟩

theorem exec_member (h : exec (step move allowed) s es = some t) (a : ι) :
    exec move (s a) (eventsOf a es) = some (t a) := by
  induction es generalizing s with
  | nil => exact congrArg some (congrFun (Option.some.inj h) a)
  | cons e es ih =>
      obtain ⟨b,e⟩ := e
      obtain ⟨u,hu,hrun⟩ := (exec_cons_eq_some _).mp h
      obtain ⟨_,v,hv,rfl⟩ := step_eq_some.mp hu
      have hrest := ih hrun
      by_cases hb : b = a
      · subst hb
        rw [Function.update_self] at hrest
        rw [eventsOf_same]
        exact (exec_cons_eq_some _).mpr ⟨v,hv,hrest⟩
      · rw [Function.update_of_ne (Ne.symm hb)] at hrest
        rwa [eventsOf_other hb]

/-- What a run of the family asks of the steps of one member, its own run
meets. -/
theorem allSteps_member {C : σ → ε → Prop}
    (hC : AllSteps (step move allowed) (fun s e => e.1 = a → C (s a) e.2) s es)
    (h : exec (step move allowed) s es = some t) : AllSteps move C (s a) (eventsOf a es) := by
  induction es generalizing s with
  | nil => trivial
  | cons e es ih =>
      obtain ⟨b,e⟩ := e
      obtain ⟨u,hu,hrun⟩ := (exec_cons_eq_some _).mp h
      obtain ⟨_,v,hv,rfl⟩ := step_eq_some.mp hu
      have hrest := ih (hC.2 _ hu) hrun
      by_cases hb : b = a
      · subst hb
        rw [Function.update_self] at hrest
        rw [eventsOf_same]
        refine ⟨hC.1 rfl,?_⟩
        intro w hw
        obtain rfl := Option.some.inj (hv.symm.trans hw)
        exact hrest
      · rw [Function.update_of_ne (Ne.symm hb)] at hrest
        rwa [eventsOf_other hb]

end Runs
end SindiaRpc.Interleavings
