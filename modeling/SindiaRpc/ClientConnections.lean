import SindiaRpc.ClientState

/-!
# Completions and closes that meet another connection object

`HandleConnection` and `CloseConn` act on `m_connection`, which may have been
replaced since the connect was started or the object was in use. The object of
a completion is the one found as long as no connect is outstanding whenever
`m_connection` changes; a close callback of any object empties `m_connection`
whatever it holds.
-/
namespace SindiaRpc.ClientConnections
open MessageFrames ConnectionState ClientState GuardedRuns

/-- A step of object `c` calls the close callback. -/
def CallsBack (abi : Abi) (s : Client) (c : ℕ) (e : ConnectionState.Event) : Prop :=
  s.Held c ∧ ∃ k ∈ s.conns[c]?, ∃ k' ∈ ConnectionState.step abi k e,
    k.closecbCalls < k'.closecbCalls

instance (abi : Abi) (s : Client) (c : ℕ) (e : ConnectionState.Event) :
    Decidable (CallsBack abi s c e) := inferInstanceAs (Decidable (_ ∧ ∃ k ∈ _, _))

/-! ### Connect completions -/

/-- `HandleConnection` finds the object that its attempt was made on, and finds
it connected if the attempt succeeded. -/
def HandlesOwn (s : Client) : ClientState.Event → Prop
  | .handle i _ _ => ∀ a ∈ s.attempts[i]?, ∀ error ∈ a.result,
      s.connection = some a.conn ∧ (error = 0 → a.conn ∈ s.established)
  | _ => True

instance (s : Client) : ∀ e, Decidable (HandlesOwn s e)
  | .handle _ _ _ => inferInstanceAs (Decidable (∀ a ∈ _, _))
  | .start _ | .test _ | .retry _ _ | .connectDone _ _ | .connection _ _ => .isTrue trivial

/-- `m_connection` changes only when no connect is outstanding. -/
def Settled (abi : Abi) (s : Client) : ClientState.Event → Prop
  | .start _ | .retry _ _ => s.attempts = []
  | .connection c e => CallsBack abi s c e → s.attempts = []
  | .test _ | .connectDone _ _ | .handle _ _ _ => True

instance (abi : Abi) (s : Client) : ∀ e, Decidable (Settled abi s e)
  | .start _ | .retry _ _ => inferInstanceAs (Decidable (s.attempts = []))
  | .connection _ _ => inferInstanceAs (Decidable (_ → _))
  | .test _ | .connectDone _ _ | .handle _ _ _ => .isTrue trivial

/-- The one connect outstanding, if any, is that of the current object. -/
structure Paired (s : Client) : Prop where
  attempt : s.attempts = [] ∨ ∃ a, s.attempts = [a] ∧ s.connection = some a.conn ∧
    (a.result = some 0 → a.conn ∈ s.established)
  greeted : ∀ c ∈ s.greeted, c ∈ s.established

section Completions
variable {abi : Abi} {H : Bytes → ℕ} {s t : Client} {e : ClientState.Event} {i : ℕ} {a : Attempt}
  {opened : Bool}

theorem Paired.of_attempt (h : Paired s) (ha : s.attempts[i]? = some a) :
    i = 0 ∧ s.attempts = [a] ∧ s.connection = some a.conn ∧
      (a.result = some 0 → a.conn ∈ s.established) := by
  rcases h.attempt with hnil | ⟨b,hone,hconn,hest⟩
  · simp [hnil] at ha
  · rw [hone,List.getElem?_singleton] at ha
    split_ifs at ha with hi
    cases ha
    exact ⟨hi,hone,hconn,hest⟩

theorem Paired.handlesOwn (h : Paired s) : HandlesOwn s e := by
  cases e with
  | handle i ip port =>
      intro a ha error hres
      obtain ⟨_,_,hconn,hest⟩ := h.of_attempt ha
      refine ⟨hconn,?_⟩
      intro herror
      exact hest (Option.mem_def.mp hres ▸ congrArg some herror)
  | start _ | test _ | retry _ _ | connectDone _ _ | connection _ _ => trivial

theorem Paired.startConnect (h : Paired s) (hnil : s.attempts = []) :
    Paired (s.startConnect opened) := by
  refine ⟨Or.inr ⟨⟨s.conns.length,none⟩,?_,rfl,nofun⟩,h.greeted⟩
  simp [Client.startConnect,hnil]

theorem checkConnect_frame (s : Client) : s.checkConnect.attempts = s.attempts ∧
    s.checkConnect.connection = s.connection ∧ s.checkConnect.established = s.established ∧
    s.checkConnect.greeted = s.greeted ∧ s.checkConnect.isconnected = s.isconnected := by
  unfold Client.checkConnect
  split_ifs <;> exact ⟨rfl,rfl,rfl,rfl,rfl⟩

/-- Between two connects. -/
theorem Paired.idle (hnil : s.attempts = []) (hgreeted : ∀ c ∈ s.greeted, c ∈ s.established) :
    Paired s := ⟨Or.inl hnil,hgreeted⟩

theorem Paired.step (h : Paired s) (he : Settled abi s e)
    (hs : ClientState.step abi H s e = some t) : Paired t := by
  cases e with
  | start opened =>
      obtain ⟨_,rfl⟩ := step_start.mp hs
      exact h.startConnect he
  | test n =>
      obtain ⟨_,rfl⟩ := step_test.mp hs
      exact ⟨h.attempt,h.greeted⟩
  | retry n opened =>
      obtain ⟨_,rfl⟩ := step_retry.mp hs
      have hnext : Paired (s.startConnect opened) := h.startConnect he
      exact ⟨hnext.attempt,hnext.greeted⟩
  | connectDone i error =>
      obtain ⟨a,ha,_,_,rfl⟩ := step_connectDone.mp hs
      obtain ⟨rfl,hone,hconn,_⟩ := h.of_attempt ha
      refine ⟨Or.inr ⟨{a with result := some error},?_,hconn,?_⟩,?_⟩
      · simp [hone]
      · intro hres
        simp [Option.some.inj hres]
      · intro c hc
        exact List.mem_append_left _ (h.greeted c hc)
  | handle i ip port =>
      obtain ⟨a,error,ha,hres,hrun⟩ := step_handle.mp hs
      obtain ⟨rfl,hone,hconn,hest⟩ := h.of_attempt ha
      have hnil : s.attempts.eraseIdx 0 = [] := by rw [hone]; rfl
      obtain ⟨k,c,hk,_,hcases⟩ := handleConnection_cases hrun
      rcases hcases with ⟨_,rfl⟩ | ⟨_,_,rfl⟩ | ⟨_,rfl,c',rfl⟩
      · exact .idle hnil h.greeted
      · obtain ⟨hattempts,_,hestablished,hgreeted,_⟩ :=
          checkConnect_frame {s with attempts := s.attempts.eraseIdx 0}
        refine .idle (hattempts.trans hnil) ?_
        rw [hgreeted,hestablished]
        exact h.greeted
      · refine .idle hnil ?_
        obtain rfl := Option.some.inj (hk.symm.trans hconn)
        exact List.forall_mem_append.mpr ⟨h.greeted,by simpa using hest hres⟩
  | connection c e =>
      obtain ⟨k,k',hk,hheld,hstep,rfl⟩ := step_connection.mp hs
      split_ifs with hlt
      · have hnil := he ⟨hheld,k,hk,k',hstep,hlt⟩
        obtain ⟨hattempts,_,hestablished,hgreeted,_⟩ := checkConnect_frame
          {s with conns := s.conns.set c k', isconnected := false, connection := none}
        refine .idle (hattempts.trans hnil) ?_
        rw [Client.closeConn,hgreeted,hestablished]
        exact h.greeted
      · exact ⟨h.attempt,h.greeted⟩

end Completions

/-- If `m_connection` changes only while no connect is outstanding, every
completion acts on its own object, and only objects whose connect has succeeded
are started. -/
theorem handles_own (abi : Abi) (H : Bytes → ℕ) (es : List ClientState.Event)
    (hes : AllSteps (step abi H) (Settled abi) {} es) :
    AllSteps (step abi H) HandlesOwn {} es ∧
      AllStates (step abi H) (fun s => ∀ c ∈ s.greeted, c ∈ s.established) {} es := by
  have hstep : ∀ s e t, Paired s → Settled abi s e → step abi H s e = some t → Paired t :=
    fun _ _ _ h he hs => h.step he hs
  have hinit : Paired {} := .idle rfl nofun
  constructor
  · exact allSteps_of_allSteps hstep (fun _ _ h _ => h.handlesOwn) hinit hes
  · exact (allStates_of_allSteps hstep hinit hes).mono fun _ h => h.greeted

theorem handles_own_refused : AllSteps (step (lp64 .little) List.length) HandlesOwn {}
      [.start true,.connectDone 0 111,.handle 0 none none,.test 0,.retry 0 true,.connectDone 0 0,
        .handle 0 (some "") (some 1)] ∧
    AllStates (step (lp64 .little) List.length) (fun s => ∀ c ∈ s.greeted, c ∈ s.established) {}
      [.start true,.connectDone 0 111,.handle 0 none none,.test 0,.retry 0 true,.connectDone 0 0,
        .handle 0 (some "") (some 1)] :=
  handles_own (lp64 .little) List.length _ (by decide)

/-- The first connect is refused and the second succeeds, but the check thread,
which has seen `m_isconnected` false, replaces its object before
`HandleConnection` runs. -/
theorem completion_of_replaced : ¬ ∀ es : List ClientState.Event,
    AllSteps (step (lp64 .little) List.length) HandlesOwn {} es := by
  intro h
  exact absurd (h [.start true,.connectDone 0 111,.handle 0 none none,.test 0,.retry 0 true,
    .test 0,.connectDone 0 0,.retry 0 true,.handle 0 none none]) (by decide)

/-! ### Closes of earlier objects -/

/-- What a close must not change if a newer object is in use. -/
def Spared (s t : Client) : Prop := t.isconnected = s.isconnected ∧ t.connection = s.connection

instance (s t : Client) : Decidable (Spared s t) := inferInstanceAs (Decidable (_ ∧ _))

/-- A step of an object that is not the current one spares the current one. -/
def StaleSpares (abi : Abi) (H : Bytes → ℕ) (s : Client) : ClientState.Event → Prop
  | .connection c e => s.connection ≠ some c → ∀ t ∈ step abi H s (.connection c e), Spared s t
  | _ => True

instance (abi : Abi) (H : Bytes → ℕ) (s : Client) : ∀ e, Decidable (StaleSpares abi H s e)
  | .connection _ _ => inferInstanceAs (Decidable (_ → ∀ t ∈ _, _))
  | .start _ | .test _ | .retry _ _ | .connectDone _ _ | .handle _ _ _ => .isTrue trivial

/-- An object that is not the current one calls back only while there is no
current one. -/
def NoneNewer (abi : Abi) (s : Client) : ClientState.Event → Prop
  | .connection c e => s.connection ≠ some c → CallsBack abi s c e → s.connection = none
  | _ => True

/-- Without a connection object the client does not count as connected. -/
def Linked (s : Client) : Prop := s.connection = none → s.isconnected = false

section Closes
variable {abi : Abi} {H : Bytes → ℕ} {s t : Client} {c : ℕ}

theorem closeConn_spares_iff (h : Linked s) :
    Spared s (s.closeConn (some c)) ↔ s.connection = none := by
  obtain ⟨_,hconn,_,_,hcon⟩ := checkConnect_frame {s with isconnected := false, connection := none}
  rw [Spared,Client.closeConn,hconn,hcon]
  constructor
  · exact fun hs => hs.2.symm
  · exact fun hnone => ⟨(h hnone).symm,hnone.symm⟩

theorem step_spares_iff {e : ConnectionState.Event} (h : Linked s)
    (hs : step abi H s (.connection c e) = some t) :
    Spared s t ↔ (CallsBack abi s c e → s.connection = none) := by
  obtain ⟨k,k',hk,hheld,hstep,rfl⟩ := step_connection.mp hs
  split_ifs with hlt
  · have hcall : CallsBack abi s c e := ⟨hheld,k,hk,k',hstep,hlt⟩
    have hspares : Spared {s with conns := s.conns.set c k'}
        (Client.closeConn (some c) {s with conns := s.conns.set c k'}) ↔ s.connection = none :=
      closeConn_spares_iff h
    exact hspares.trans ⟨fun hnone _ => hnone,fun himp => himp hcall⟩
  · refine iff_of_true ⟨rfl,rfl⟩ ?_
    intro hcall
    obtain ⟨_,j,hj,j',hj',hlt'⟩ := hcall
    obtain rfl := Option.some.inj (hk.symm.trans hj)
    obtain rfl := Option.some.inj (hstep.symm.trans hj')
    exact absurd hlt' hlt

theorem Linked.step {e : ClientState.Event} (h : Linked s)
    (hs : ClientState.step abi H s e = some t) : Linked t := by
  cases e with
  | start opened =>
      obtain ⟨_,rfl⟩ := step_start.mp hs
      exact nofun
  | test n =>
      obtain ⟨_,rfl⟩ := step_test.mp hs
      exact h
  | retry n opened =>
      obtain ⟨_,rfl⟩ := step_retry.mp hs
      exact nofun
  | connectDone i error =>
      obtain ⟨a,_,_,_,rfl⟩ := step_connectDone.mp hs
      exact h
  | handle i ip port =>
      obtain ⟨a,error,_,_,hrun⟩ := step_handle.mp hs
      obtain ⟨k,c,hk,_,hcases⟩ := handleConnection_cases hrun
      have hsome : t.connection = some k := by
        rcases hcases with ⟨_,rfl⟩ | ⟨_,_,rfl⟩ | ⟨_,_,c',rfl⟩
        · exact hk
        · exact (checkConnect_frame _).2.1.trans hk
        · exact hk
      intro hnone
      rw [hsome] at hnone
      cases hnone
  | connection c e =>
      obtain ⟨k,k',_,_,_,rfl⟩ := step_connection.mp hs
      split_ifs
      · exact fun _ => (checkConnect_frame _).2.2.2.2
      · exact h

theorem staleSpares_iff {e : ClientState.Event} (h : Linked s) :
    StaleSpares abi H s e ↔ NoneNewer abi s e := by
  cases e with
  | connection c e =>
      constructor
      · intro hspares hstale hcall
        have ⟨hheld,k,hk,k',hstep,_⟩ := hcall
        have hs := step_connection (H := H).mpr ⟨k,k',hk,hheld,hstep,rfl⟩
        exact (step_spares_iff h hs).mp (hspares hstale _ hs) hcall
      · intro hnone hstale t hs
        exact (step_spares_iff h hs).mpr (hnone hstale)
  | start _ | test _ | retry _ _ | connectDone _ _ | handle _ _ _ => exact Iff.rfl

end Closes

/-- A close callback of an earlier object spares the current one exactly if
there is none, in every state reached and in every step of every run. -/
theorem stale_close_iff (abi : Abi) (H : Bytes → ℕ) (es : List ClientState.Event) :
    AllStates (step abi H) (fun s => ∀ c < s.conns.length, s.connection ≠ some c →
      (Spared s (s.closeConn (some c)) ↔ s.connection = none)) {} es ∧
    (AllSteps (step abi H) (StaleSpares abi H) {} es ↔
      AllSteps (step abi H) (NoneNewer abi) {} es) := by
  have hinit : Linked {} := fun _ => rfl
  have hstep : ∀ s e t, Linked s → step abi H s e = some t → Linked t :=
    fun _ _ _ h hs => h.step hs
  constructor
  · exact allStates_of_invariant hstep (fun s h c _ _ => closeConn_spares_iff h) hinit
  · exact allSteps_congr hstep (fun _ _ h => staleSpares_iff h) hinit

/-- A failed write closes the connection and the check thread installs the next
one; then the aborted body read of the first closes again. -/
theorem closed_again_after_reconnect : ¬ ∀ es : List ClientState.Event,
    AllSteps (step (lp64 .little) List.length) (StaleSpares (lp64 .little) List.length) {} es := by
  intro h
  exact absurd (h [.start true,.connectDone 0 0,.handle 0 (some "") (some 1),
    .connection 0 (.receive (Header.image .little {type := 1, length := 5})),
    .connection 0 (.readReady 0),.connection 0 (.runRead 0 none),
    .connection 0 (.writeFail 0 32),.connection 0 (.runWrite 0),
    .test 0,.retry 0 true,.connection 0 (.runRead 0 none)]) (by decide)

end SindiaRpc.ClientConnections
