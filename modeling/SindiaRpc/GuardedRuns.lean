import Mathlib.Data.List.Basic

/-!
# Runs of a partial step function

A machine is a step function `σ → ε → Option σ`: an event that is not enabled
in a state, or whose effect is undefined there, has no successor. A run is the
fold of the step function over a finite list of events, so every prefix of a
run is a run and every state it passes through is a state that is reached.

`AllStates` and `AllSteps` speak about all the states and all the steps of one
run. Both are decided by evaluating the run. The rules at the end are the ones
used for invariants: an invariant that the steps meeting a condition preserve
holds in every state of a run all of whose steps meet the condition, and where
a step that breaks the condition breaks the property, the two are equivalent.
-/
namespace SindiaRpc.GuardedRuns

variable {σ ε : Type*} (step : σ → ε → Option σ)

def exec : σ → List ε → Option σ
  | s, [] => some s
  | s, e :: es => (step s e).bind fun t => exec t es

@[simp] theorem exec_nil (s : σ) : exec step s [] = some s := rfl

@[simp] theorem exec_cons (s : σ) (e : ε) (es : List ε) :
    exec step s (e :: es) = (step s e).bind fun t => exec step t es := rfl

theorem exec_cons_eq_some {s u : σ} {e : ε} {es : List ε} :
    exec step s (e :: es) = some u ↔ ∃ t, step s e = some t ∧ exec step t es = some u := by
  simp only [exec_cons,Option.bind_eq_some_iff]

theorem exec_append (s : σ) (es fs : List ε) :
    exec step s (es ++ fs) = (exec step s es).bind fun t => exec step t fs := by
  induction es generalizing s with
  | nil => rfl
  | cons e es ih => simp only [List.cons_append,exec_cons,ih,Option.bind_assoc]

theorem exec_append_eq_some {s u : σ} {es fs : List ε} :
    exec step s (es ++ fs) = some u ↔ ∃ t, exec step s es = some t ∧ exec step t fs = some u := by
  simp only [exec_append,Option.bind_eq_some_iff]

/-- A run goes on with one more step. -/
theorem exec_concat {s t u : σ} {es : List ε} {e : ε} (h : exec step s es = some t)
    (hu : step t e = some u) : exec step s (es ++ [e]) = some u := by
  refine (exec_append_eq_some step).mpr ⟨t,h,?_⟩
  rw [exec_cons,hu]
  rfl

/-- A property kept by the enabled steps a run takes is kept by the run. -/
theorem exec_invariant {P : σ → Prop} {A : ε → Prop}
    (hstep : ∀ s e t, A e → P s → step s e = some t → P t)
    {s t : σ} {es : List ε} (hes : ∀ e ∈ es, A e) (hs : P s)
    (h : exec step s es = some t) : P t := by
  induction es generalizing s with
  | nil => exact Option.some.inj h ▸ hs
  | cons e es ih =>
      obtain ⟨u,hu,hrun⟩ := (exec_cons_eq_some step).mp h
      exact ih (fun f hf => hes f (by simp [hf])) (hstep s e u (hes e (by simp)) hs hu) hrun

/-- A property kept by every step a run can take. -/
theorem exec_preserves {P : σ → Prop} (hstep : ∀ s e t, P s → step s e = some t → P t)
    {s t : σ} {es : List ε} (hs : P s) (h : exec step s es = some t) : P t :=
  exec_invariant step (A := fun _ => True) (fun s e t _ => hstep s e t) (fun _ _ => trivial) hs h

/-- The same, where the step may use what is known of the states a run reaches. -/
theorem exec_reached {P : σ → Prop} {s₀ : σ}
    (hstep : ∀ es s e t, exec step s₀ es = some s → P s → step s e = some t → P t)
    {s : σ} {es : List ε} (hs : P s₀) (h : exec step s₀ es = some s) : P s := by
  have hboth : P s ∧ ∃ fs, exec step s₀ fs = some s := by
    apply exec_preserves step (P := fun s => P s ∧ ∃ fs, exec step s₀ fs = some s)
      ?_ ⟨hs,[],rfl⟩ h
    intro u e v hu hv
    obtain ⟨hP,fs,hfs⟩ := hu
    exact ⟨hstep fs u e v hfs hP hv,fs ++ [e],exec_concat step hfs hv⟩
  exact hboth.1

/-- A property that a run ends with and did not start with began to hold at one
of its steps. -/
theorem exec_became {P : σ → Prop} {s t : σ} {es : List ε} (hs : ¬ P s) (ht : P t)
    (h : exec step s es = some t) : ∃ pre e post u v, es = pre ++ e :: post ∧
      exec step s pre = some u ∧ step u e = some v ∧ exec step v post = some t ∧ ¬ P u ∧ P v := by
  induction es generalizing s with
  | nil => exact absurd (Option.some.inj h ▸ ht) hs
  | cons e es ih =>
      obtain ⟨u,hu,hrun⟩ := (exec_cons_eq_some step).mp h
      by_cases hP : P u
      · exact ⟨[],e,es,s,u,rfl,rfl,hu,hrun,hs,hP⟩
      · obtain ⟨pre,f,post,v,w,rfl,hpre,hrest⟩ := ih hP hrun
        exact ⟨e :: pre,f,post,v,w,rfl,(exec_cons_eq_some step).mpr ⟨u,hu,hpre⟩,hrest⟩

theorem countP_cons_toNat (p : ε → Bool) (e : ε) (es : List ε) :
    (e :: es).countP p = es.countP p + (p e).toNat := by
  cases he : p e <;> simp [he]

/-- If the steps of `own` lower a rank, the rank goes down with each of them,
whatever enabled steps come in between. -/
theorem exec_rank {P : σ → Prop} {A : ε → Prop} {own : ε → Bool} {rank : σ → ℕ}
    (hstep : ∀ s e t, A e → P s → step s e = some t →
      P t ∧ rank t ≤ rank s - (own e).toNat)
    {s t : σ} {es : List ε} (hes : ∀ e ∈ es, A e) (hs : P s) (h : exec step s es = some t) :
    P t ∧ rank t ≤ rank s - es.countP own := by
  induction es generalizing s with
  | nil => exact Option.some.inj h ▸ ⟨hs,Nat.le_refl _⟩
  | cons e es ih =>
      obtain ⟨u,hu,hrun⟩ := (exec_cons_eq_some step).mp h
      have hone := hstep s e u (hes e (by simp)) hs hu
      have hrest := ih (fun f hf => hes f (by simp [hf])) hone.1 hrun
      refine ⟨hrest.1,?_⟩
      have hcount := countP_cons_toNat own e es
      omega

/-- If the steps of `own` lower a rank and only those of `more` raise it, the rank
and the raises bound how many steps of `own` there are. -/
theorem exec_budget {P : σ → Prop} {own more : ε → Bool} {rank : σ → ℕ}
    (hstep : ∀ s e t, P s → step s e = some t →
      P t ∧ rank t + (own e).toNat ≤ rank s + (more e).toNat)
    {s t : σ} {es : List ε} (hs : P s) (h : exec step s es = some t) :
    rank t + es.countP own ≤ rank s + es.countP more := by
  induction es generalizing s with
  | nil => exact Option.some.inj h ▸ Nat.le_refl _
  | cons e es ih =>
      obtain ⟨u,hu,hrun⟩ := (exec_cons_eq_some step).mp h
      obtain ⟨hP,hone⟩ := hstep s e u hs hu
      have hrest := ih hP hrun
      rw [countP_cons_toNat,countP_cons_toNat]
      omega

/-- What the steps of a run yield, in order. -/
def collect {α : Type*} (f : σ → ε → List α) : σ → List ε → List α
  | _, [] => []
  | s, e :: es => f s e ++ ((step s e).map fun t => collect f t es).getD []

/-- A history that each step extends by what it yields. -/
theorem exec_collect {α : Type*} {f : σ → ε → List α} {history : σ → List α}
    (hstep : ∀ s e t, step s e = some t → history t = history s ++ f s e)
    {s t : σ} {es : List ε} (h : exec step s es = some t) :
    history t = history s ++ collect step f s es := by
  induction es generalizing s with
  | nil =>
      cases h
      exact (List.append_nil _).symm
  | cons e es ih =>
      obtain ⟨u,hu,hrun⟩ := (exec_cons_eq_some step).mp h
      rw [ih hrun,hstep s e u hu,List.append_assoc,collect,hu]
      rfl

/-- `P` holds in every state the run reaches, the first one included. -/
def AllStates (P : σ → Prop) : σ → List ε → Prop
  | s, [] => P s
  | s, e :: es => P s ∧ ∀ t ∈ step s e, AllStates P t es

/-- `C` holds of every event together with the state it is taken in. -/
def AllSteps (C : σ → ε → Prop) : σ → List ε → Prop
  | _, [] => True
  | s, e :: es => C s e ∧ ∀ t ∈ step s e, AllSteps C t es

instance AllStates.decidable (P : σ → Prop) [∀ s, Decidable (P s)] :
    ∀ s es, Decidable (AllStates step P s es)
  | s, [] => inferInstanceAs (Decidable (P s))
  | s, e :: es =>
      match h : step s e with
      | none => decidable_of_iff (P s) (by simp [AllStates,h])
      | some t =>
          have := AllStates.decidable P t es
          decidable_of_iff (P s ∧ AllStates step P t es) (by simp [AllStates,h])

instance AllSteps.decidable (C : σ → ε → Prop) [∀ s e, Decidable (C s e)] :
    ∀ s es, Decidable (AllSteps step C s es)
  | _, [] => inferInstanceAs (Decidable True)
  | s, e :: es =>
      match h : step s e with
      | none => decidable_of_iff (C s e) (by simp [AllSteps,h])
      | some t =>
          have := AllSteps.decidable C t es
          decidable_of_iff (C s e ∧ AllSteps step C t es) (by simp [AllSteps,h])

variable {step}

theorem AllStates.head {P : σ → Prop} {s : σ} {es : List ε}
    (h : AllStates step P s es) : P s := by
  cases es with
  | nil => exact h
  | cons e es => exact h.1

theorem AllStates.mono {P Q : σ → Prop} (hPQ : ∀ s, P s → Q s) {s : σ} {es : List ε}
    (h : AllStates step P s es) : AllStates step Q s es := by
  induction es generalizing s with
  | nil => exact hPQ s h
  | cons e es ih => exact ⟨hPQ s h.1,fun t ht => ih (h.2 t ht)⟩

/-- The states of a run are the ends of its prefixes. -/
theorem allStates_iff {P : σ → Prop} {s : σ} {es : List ε} :
    AllStates step P s es ↔ ∀ fs, fs <+: es → ∀ t, exec step s fs = some t → P t := by
  induction es generalizing s with
  | nil =>
      constructor
      · intro h fs hfs t ht
        rw [List.prefix_nil.mp hfs] at ht
        exact Option.some.inj ht ▸ h
      · exact fun h => h [] (List.prefix_refl _) s rfl
  | cons e es ih =>
      constructor
      · intro hall fs hfs t ht
        rcases hall with ⟨hs,hrest⟩
        cases fs with
        | nil => exact Option.some.inj ht ▸ hs
        | cons f fs =>
            obtain ⟨rfl,hpre⟩ := List.cons_prefix_cons.mp hfs
            obtain ⟨u,hu,hrun⟩ := (exec_cons_eq_some step).mp ht
            exact ih.mp (hrest u hu) fs hpre t hrun
      · refine fun h => ⟨h [] (List.nil_prefix) s rfl,fun t ht => ih.mpr ?_⟩
        intro fs hfs u hu
        exact h (e :: fs) (List.cons_prefix_cons.mpr ⟨rfl,hfs⟩) u
          ((exec_cons_eq_some step).mpr ⟨t,ht,hu⟩)

theorem AllStates.last {P : σ → Prop} {s t : σ} {es : List ε}
    (h : AllStates step P s es) (ht : exec step s es = some t) : P t :=
  allStates_iff.mp h es (List.prefix_refl _) t ht

/-- The invariant rule for guarded runs. -/
theorem allStates_of_allSteps {I : σ → Prop} {C : σ → ε → Prop}
    (hstep : ∀ s e t, I s → C s e → step s e = some t → I t)
    {s : σ} {es : List ε} (hs : I s) (hC : AllSteps step C s es) :
    AllStates step I s es := by
  induction es generalizing s with
  | nil => exact hs
  | cons e es ih =>
      exact ⟨hs,fun t ht => ih (hstep s e t hs hC.1 ht) (hC.2 t ht)⟩

/-- The same for what an invariant says about the steps taken under it. -/
theorem allSteps_of_allSteps {I : σ → Prop} {C D : σ → ε → Prop}
    (hstep : ∀ s e t, I s → C s e → step s e = some t → I t) (hCD : ∀ s e, I s → C s e → D s e)
    {s : σ} {es : List ε} (hs : I s) (hC : AllSteps step C s es) : AllSteps step D s es := by
  induction es generalizing s with
  | nil => trivial
  | cons e es ih =>
      exact ⟨hCD s e hs hC.1,fun t ht => ih (hstep s e t hs hC.1 ht) (hC.2 t ht)⟩

theorem allSteps_true (s : σ) (es : List ε) : AllSteps step (fun _ _ => True) s es := by
  induction es generalizing s with
  | nil => trivial
  | cons e es ih => exact ⟨trivial,fun t _ => ih t⟩

theorem allSteps_of_forall {C : σ → ε → Prop} (hC : ∀ s e, C s e) (s : σ) (es : List ε) :
    AllSteps step C s es := by
  induction es generalizing s with
  | nil => trivial
  | cons e es ih => exact ⟨hC s e,fun t _ => ih t⟩

theorem allStates_of_invariant {I P : σ → Prop} (hstep : ∀ s e t, I s → step s e = some t → I t)
    (hIP : ∀ s, I s → P s) {s : σ} {es : List ε} (hs : I s) : AllStates step P s es :=
  (allStates_of_allSteps (fun s e t h _ => hstep s e t h) hs (allSteps_true s es)).mono hIP

/-- Conditions on steps that agree wherever an invariant holds. -/
theorem allSteps_congr {I : σ → Prop} {C D : σ → ε → Prop}
    (hstep : ∀ s e t, I s → step s e = some t → I t) (hCD : ∀ s e, I s → (C s e ↔ D s e))
    {s : σ} {es : List ε} (hs : I s) : AllSteps step C s es ↔ AllSteps step D s es := by
  constructor
  · exact allSteps_of_allSteps (fun s e t h _ => hstep s e t h) (fun s e h => (hCD s e h).mp) hs
  · exact allSteps_of_allSteps (fun s e t h _ => hstep s e t h) (fun s e h => (hCD s e h).mpr) hs

/-- Exactness, in runs that keep to `D`: if every step outside the condition is
enabled and ends in a state without the property, a run has the property
throughout iff all its steps meet the condition. -/
theorem allStates_iff_allSteps_within {I P : σ → Prop} {C D : σ → ε → Prop}
    (hIP : ∀ s, I s → P s)
    (hstep : ∀ s e t, I s → D s e → C s e → step s e = some t → I t)
    (hbreak : ∀ s e, I s → D s e → ¬ C s e → ∃ t, step s e = some t ∧ ¬ P t)
    {s : σ} {es : List ε} (hs : I s) (hD : AllSteps step D s es) :
    AllStates step P s es ↔ AllSteps step C s es := by
  induction es generalizing s with
  | nil => exact ⟨fun _ => trivial,fun _ => hIP s hs⟩
  | cons e es ih =>
      constructor
      · intro h
        have hC : C s e := by
          by_contra hC
          obtain ⟨t,ht,hP⟩ := hbreak s e hs hD.1 hC
          exact hP (h.2 t ht).head
        exact ⟨hC,fun t ht => (ih (hstep s e t hs hD.1 hC ht) (hD.2 t ht)).mp (h.2 t ht)⟩
      · intro h
        exact ⟨hIP s hs,fun t ht => (ih (hstep s e t hs hD.1 h.1 ht) (hD.2 t ht)).mpr (h.2 t ht)⟩

theorem allStates_iff_allSteps {I P : σ → Prop} {C : σ → ε → Prop}
    (hIP : ∀ s, I s → P s)
    (hstep : ∀ s e t, I s → C s e → step s e = some t → I t)
    (hbreak : ∀ s e, I s → ¬ C s e → ∃ t, step s e = some t ∧ ¬ P t)
    {s : σ} {es : List ε} (hs : I s) :
    AllStates step P s es ↔ AllSteps step C s es :=
  allStates_iff_allSteps_within hIP (fun s e t hI _ => hstep s e t hI)
    (fun s e hI _ => hbreak s e hI) hs (allSteps_true s es)

section Unwinding
variable {visible : ε → Bool} {R : σ → σ → Prop}

/-- Unwinding: hidden events keep the relation on either side and visible
events keep it in lockstep, so two runs with the same visible events end in
related states. -/
theorem unwinding
    (hleft : ∀ s t e s', R s t → visible e = false → step s e = some s' → R s' t)
    (hright : ∀ s t e t', R s t → visible e = false → step t e = some t' → R s t')
    (hboth : ∀ s t e s' t', R s t → visible e = true →
      step s e = some s' → step t e = some t' → R s' t')
    {es fs : List ε} (heq : es.filter visible = fs.filter visible)
    {s t s' t' : σ} (hR : R s t)
    (hs : exec step s es = some s') (ht : exec step t fs = some t') : R s' t' := by
  induction es generalizing s t fs with
  | nil =>
      have hrel : R s t' := by
        refine exec_invariant step (P := R s) (A := fun e => visible e = false)
          (fun u e u' he hu => hright s u e u' hu he) ?_ hR ht
        simpa using heq.symm
      exact Option.some.inj hs ▸ hrel
  | cons e es ih =>
      obtain ⟨u,hu,hrun⟩ := (exec_cons_eq_some step).mp hs
      cases he : visible e with
      | false =>
          exact ih (by simpa [he] using heq) (hleft s t e u hR he hu) hrun ht
      | true =>
          -- the other run reaches the same visible event after some hidden ones
          obtain ⟨gs,hs',rfl,hhid,hrest⟩ := List.filter_eq_cons_iff.mp
            (show fs.filter visible = e :: es.filter visible by simpa [he] using heq.symm)
          obtain ⟨v,hv,hvrun⟩ := (exec_append_eq_some step).mp ht
          obtain ⟨w,hw,hwrun⟩ := (exec_cons_eq_some step).mp hvrun
          have hRv : R s v := by
            refine exec_invariant step (P := R s) (A := fun e => visible e = false)
              (fun u e u' he hu => hright s u e u' hu he) ?_ hR hv
            exact fun f hf => by simpa using hhid f hf
          exact ih hrest.2.symm (hboth s v e u w hRv he hu hw) hrun hwrun

end Unwinding

section Simulation
variable {τ ε' : Type*} {step' : τ → ε' → Option τ} {R : σ → τ → Prop} {C : σ → ε → Prop}
  {D : τ → ε' → Prop}

/-- Forward simulation: if each step that meets the condition is matched by one
step that meets `D` or by none, a run whose steps meet it is matched by a run whose
steps meet `D`. -/
theorem exec_simulates (hstep : ∀ s e s' t, R s t → C s e → step s e = some s' →
      R s' t ∨ ∃ e' t', D t e' ∧ step' t e' = some t' ∧ R s' t')
    {s s' : σ} {t : τ} {es : List ε} (hs : R s t) (hC : AllSteps step C s es)
    (h : exec step s es = some s') :
    ∃ fs t', AllSteps step' D t fs ∧ exec step' t fs = some t' ∧ R s' t' := by
  induction es generalizing s t with
  | nil => exact ⟨[],t,trivial,rfl,Option.some.inj h ▸ hs⟩
  | cons e es ih =>
      obtain ⟨u,hu,hrun⟩ := (exec_cons_eq_some _).mp h
      rcases hstep s e u t hs hC.1 hu with hR | ⟨e',v,hD,hv,hR⟩
      · exact ih hR (hC.2 u hu) hrun
      · obtain ⟨fs,t',hall,hfs,hR'⟩ := ih hR (hC.2 u hu) hrun
        refine ⟨e' :: fs,t',⟨hD,?_⟩,(exec_cons_eq_some _).mpr ⟨v,hv,hfs⟩,hR'⟩
        intro w hw
        obtain rfl := Option.some.inj (hv.symm.trans hw)
        exact hall

end Simulation
end SindiaRpc.GuardedRuns
