import SindiaRpc.ClientConnections

/-!
# Completions that find no connection object

`HandleConnection` dereferences `m_connection`, and `CloseConn` empties it. A
close callback that runs while a connect is outstanding also destroys the object
of that connect, so its completion is the next to come and finds nothing.
-/
namespace SindiaRpc.NullConnections
open MessageFrames ConnectionState ClientState ClientConnections GuardedRuns
  ListUpdates

/-- `HandleConnection` runs and `m_connection` is empty. -/
def Dereferences (s : Client) : ClientState.Event → Prop
  | .handle i _ _ => (∃ a ∈ s.attempts[i]?, a.result ≠ none) ∧ s.connection = none
  | _ => False

instance (s : Client) : ∀ e, Decidable (Dereferences s e)
  | .handle _ _ _ => inferInstanceAs (Decidable ((∃ a ∈ _, _) ∧ _))
  | .start _ | .test _ | .retry _ _ | .connectDone _ _ | .connection _ _ => .isFalse id

/-- The completion of a connect comes next, if it is not queued yet, and its
handler crashes. -/
def Endangered (abi : Abi) (H : Bytes → ℕ) (s : Client) : Prop :=
  ∃ es i t, (es = [] ∨ ∃ error, es = [.connectDone i error]) ∧
    exec (step abi H) s es = some t ∧ ∀ ip port, Dereferences t (.handle i ip port)

/-- No close callback runs while a connect is outstanding. -/
def ClosesIdle (abi : Abi) (s : Client) : ClientState.Event → Prop
  | .connection c e => CallsBack abi s c e → s.attempts = []
  | _ => True

instance (abi : Abi) (s : Client) : ∀ e, Decidable (ClosesIdle abi s e)
  | .connection _ _ => inferInstanceAs (Decidable (_ → _))
  | .start _ | .test _ | .retry _ _ | .connectDone _ _ | .handle _ _ _ => .isTrue trivial

/-- An outstanding connect has its object, or a newer one. -/
def Backed (s : Client) : Prop := s.attempts ≠ [] → s.connection ≠ none

section Steps
variable {abi : Abi} {H : Bytes → ℕ} {s t : Client} {e : ClientState.Event}

theorem dereferences_iff {i : ℕ} {ip : Option String} {port : Option ℕ} :
    Dereferences s (.handle i ip port) ↔
      ∃ a error, s.attempts[i]? = some a ∧ a.result = some error ∧ s.connection = none := by
  constructor
  · intro h
    obtain ⟨⟨a,ha,hres⟩,hnone⟩ := h
    obtain ⟨error,herror⟩ := Option.ne_none_iff_exists'.mp hres
    exact ⟨a,error,ha,herror,hnone⟩
  · intro h
    obtain ⟨a,error,ha,hres,hnone⟩ := h
    exact ⟨⟨a,ha,by simp [hres]⟩,hnone⟩

/-- The handler has no effect that could be stated. -/
theorem step_dereferences (h : Dereferences s e) : step abi H s e = none := by
  cases e with
  | handle i ip port =>
      rw [Option.eq_none_iff_forall_ne_some]
      intro t ht
      obtain ⟨a,error,_,_,hrun⟩ := step_handle.mp ht
      obtain ⟨k,_,hk,_⟩ := handleConnection_cases hrun
      have hnone : s.connection = none := h.2
      change s.connection = some k at hk
      rw [hnone] at hk
      cases hk
  | start _ | test _ | retry _ _ | connectDone _ _ | connection _ _ => exact h.elim

theorem endangered_iff : Endangered abi H s ↔ ¬ Backed s := by
  rw [Backed,Classical.not_imp,not_not]
  constructor
  · intro h
    obtain ⟨es,i,t,hes,hrun,hcrash⟩ := h
    obtain ⟨a,_,ha,_,hnone⟩ := dereferences_iff.mp (hcrash none none)
    rcases hes with rfl | ⟨error,rfl⟩
    · obtain rfl := Option.some.inj hrun
      exact ⟨List.ne_nil_of_mem (List.mem_of_getElem? ha),hnone⟩
    · obtain ⟨u,hu,hlast⟩ := (exec_cons_eq_some _).mp hrun
      obtain rfl := Option.some.inj hlast
      obtain ⟨b,hb,_,_,rfl⟩ := step_connectDone.mp hu
      exact ⟨List.ne_nil_of_mem (List.mem_of_getElem? hb),hnone⟩
  · intro h
    obtain ⟨hne,hnone⟩ := h
    obtain ⟨a,rest,hattempts⟩ := List.exists_cons_of_ne_nil hne
    have ha : s.attempts[0]? = some a := by rw [hattempts]; rfl
    cases hres : a.result with
    | some error =>
        refine ⟨[],0,s,Or.inl rfl,rfl,fun ip port => ?_⟩
        exact dereferences_iff.mpr ⟨a,error,ha,hres,hnone⟩
    | none =>
        -- the connect of an object that is closed or gone is aborted
        have hdone : step abi H s (.connectDone 0 operationAborted) = some {s with
            attempts := s.attempts.set 0 {a with result := some operationAborted}
            established := s.established ++ if operationAborted = 0 then [a.conn] else []} :=
          step_connectDone.mpr ⟨a,ha,hres,fun hzero => absurd hzero (by decide),rfl⟩
        refine ⟨[.connectDone 0 operationAborted],0,_,Or.inr ⟨_,rfl⟩,
          (exec_cons_eq_some _).mpr ⟨_,hdone,rfl⟩,fun ip port => ?_⟩
        exact dereferences_iff.mpr ⟨_,operationAborted,getElem?_set_of_eq_some ha,rfl,hnone⟩

theorem Backed.step (h : Backed s) (he : ClosesIdle abi s e)
    (hs : ClientState.step abi H s e = some t) : Backed t := by
  cases e with
  | start opened =>
      obtain ⟨_,rfl⟩ := step_start.mp hs
      intro _ hnone
      cases hnone
  | test n =>
      obtain ⟨_,rfl⟩ := step_test.mp hs
      exact h
  | retry n opened =>
      obtain ⟨_,rfl⟩ := step_retry.mp hs
      intro _ hnone
      cases hnone
  | connectDone i error =>
      obtain ⟨a,ha,_,_,rfl⟩ := step_connectDone.mp hs
      intro _
      exact h (List.ne_nil_of_mem (List.mem_of_getElem? ha))
  | handle i ip port =>
      obtain ⟨a,error,_,_,hrun⟩ := step_handle.mp hs
      obtain ⟨k,c,hk,_,hcases⟩ := handleConnection_cases hrun
      have hsome : t.connection = some k := by
        rcases hcases with ⟨_,rfl⟩ | ⟨_,_,rfl⟩ | ⟨_,_,c',rfl⟩
        · exact hk
        · exact (checkConnect_frame _).2.1.trans hk
        · exact hk
      intro _ hnone
      rw [hsome] at hnone
      cases hnone
  | connection c e =>
      obtain ⟨k,k',hk,hheld,hstep,rfl⟩ := step_connection.mp hs
      split_ifs with hlt
      · have hattempts := (checkConnect_frame
          {s with conns := s.conns.set c k', isconnected := false, connection := none}).1
        exact fun hne => absurd (hattempts.trans (he ⟨hheld,k,hk,k',hstep,hlt⟩)) hne
      · exact h

/-- A close callback takes the object away from the connect. -/
theorem unbacked_step (he : ¬ ClosesIdle abi s e) :
    ∃ t, ClientState.step abi H s e = some t ∧ ¬ Backed t := by
  cases e with
  | connection c e =>
      obtain ⟨hcall,hne⟩ := Classical.not_imp.mp he
      obtain ⟨hheld,k,hk,k',hstep,hlt⟩ := hcall
      refine ⟨_,step_connection.mpr ⟨k,k',hk,hheld,hstep,rfl⟩,?_⟩
      rw [if_pos hlt]
      obtain ⟨hattempts,hconn,_⟩ := checkConnect_frame
        {s with conns := s.conns.set c k', isconnected := false, connection := none}
      intro hbacked
      exact hbacked (fun hnil => hne (hattempts.symm.trans hnil)) hconn
  | start _ | test _ | retry _ _ | connectDone _ _ | handle _ _ _ => exact absurd trivial he

end Steps

/-- In no state of a run is the client about to crash in `HandleConnection`
exactly if no close callback of it runs while a connect is outstanding. -/
theorem never_endangered_iff (abi : Abi) (H : Bytes → ℕ) (es : List ClientState.Event) :
    AllStates (step abi H) (fun s => ¬ Endangered abi H s) {} es ↔
      AllSteps (step abi H) (ClosesIdle abi) {} es := by
  apply allStates_iff_allSteps (I := Backed)
  · exact fun s h hcrash => endangered_iff.mp hcrash h
  · exact fun _ _ _ h he hs => h.step he hs
  · intro s e _ he
    obtain ⟨t,ht,hlost⟩ := unbacked_step (H := H) he
    exact ⟨t,ht,fun hsafe => hsafe (endangered_iff.mpr hlost)⟩
  · exact fun hne => absurd rfl hne

/-- The check thread replaces a connection that has just been established; the
peer closes the old one while the connect of the new one is outstanding. -/
example : ∃ s ∈ exec (step (lp64 .little) List.length) {}
    [.start true,.connectDone 0 111,.handle 0 none none,.test 0,.retry 0 true,.test 0,
      .connectDone 0 0,.handle 0 (some "") (some 1),.retry 0 true,.connection 1 (.readFail 0 2),
      .connection 1 (.runRead 0 none),.connectDone 0 operationAborted],
    Dereferences s (.handle 0 none none) := by decide

end SindiaRpc.NullConnections
