import SindiaRpc.ClientConnections

/-!
# Whether the client keeps trying

`HandleConnection` and `CloseConn` start the check thread once a connect has
failed or a connection is lost, and the thread never ends. The exception is a
socket that could not be opened: `HandleConnection` returns before it looks at
the error, and if that happens to the first connect nothing follows it.
-/
namespace SindiaRpc.ClientRetries
open ConnectionState MessageFrames ClientState GuardedRuns ListUpdates

/-- Once started, a client that is not connected has a connect outstanding or
its one check thread, whose next steps are another `StartConnect`. -/
structure KeepsTrying (abi : Abi) (H : Bytes → ℕ) (s : Client) : Prop where
  pending : s.conns ≠ [] → s.isconnected = false → s.attempts ≠ [] ∨ s.chkthread = true
  one : s.checks.length ≤ 1
  retries : s.chkthread = true → s.isconnected = false → ∀ opened, ∃ es t,
    (es = [.retry 0 opened] ∨ es = [.test 0,.retry 0 opened]) ∧
      exec (step abi H) s es = some t ∧ t.conns.length = s.conns.length + 1

/-- `HandleConnection` returns at once and no check thread is running. -/
def GivesUp (s : Client) : ClientState.Event → Prop
  | .handle i _ _ => (∃ a ∈ s.attempts[i]?, a.result ≠ none) ∧ s.chkthread = false ∧
      ∃ k ∈ s.connection, ∃ c ∈ s.conns[k]?, c.isOpen = false
  | _ => False

/-- The client until its check thread is started. -/
inductive FirstConnect (s : Client) : Prop
  | unstarted (conns : s.conns = []) (attempts : s.attempts = [])
      (isconnected : s.isconnected = false)
  | connecting (a : Attempt) (conns : s.conns ≠ []) (attempts : s.attempts = [a])
      (isconnected : s.isconnected = false)
  | connected (conns : s.conns ≠ []) (attempts : s.attempts = []) (isconnected : s.isconnected = true)

structure Supervised (s : Client) : Prop where
  thread : s.checks.length = s.chkthread.toNat
  first : s.chkthread = false → FirstConnect s

section Steps
variable {abi : Abi} {H : Bytes → ℕ} {s t : Client} {e : ClientState.Event} {opened : Bool}

theorem retry_next (hcheck : s.checks[0]? = some .retrying) :
    ∃ t, exec (step abi H) s [.retry 0 opened] = some t ∧
      t.conns.length = s.conns.length + 1 := by
  refine ⟨{s.startConnect opened with checks := s.checks.set 0 .testing},?_,?_⟩
  · exact (exec_cons_eq_some _).mpr ⟨_,step_retry.mpr ⟨hcheck,rfl⟩,rfl⟩
  · simp [Client.startConnect]

theorem test_next (hcheck : s.checks[0]? = some .testing) (hcon : s.isconnected = false) :
    ∃ t, exec (step abi H) s [.test 0,.retry 0 opened] = some t ∧
      t.conns.length = s.conns.length + 1 := by
  have htest : step abi H s (.test 0) = some {s with checks := s.checks.set 0 .retrying} :=
    step_test.mpr ⟨hcheck,by rw [hcon]; rfl⟩
  obtain ⟨t,hrun,hlen⟩ : ∃ t, exec (step abi H) {s with checks := s.checks.set 0 .retrying}
      [.retry 0 opened] = some t ∧ t.conns.length = s.conns.length + 1 :=
    retry_next (getElem?_set_of_eq_some hcheck)
  exact ⟨t,(exec_cons_eq_some _).mpr ⟨_,htest,hrun⟩,hlen⟩

theorem Supervised.keepsTrying (h : Supervised s) : KeepsTrying abi H s := by
  have hthread := h.thread
  refine ⟨?_,?_,?_⟩
  · intro hne hcon
    cases hchk : s.chkthread with
    | true => exact Or.inr rfl
    | false =>
        rcases h.first hchk with ⟨hnil,_⟩ | ⟨a,_,hone,_⟩ | ⟨_,_,htrue⟩
        · exact absurd hnil hne
        · left
          rw [hone]
          exact List.cons_ne_nil _ _
        · rw [hcon] at htrue
          cases htrue
  · have := Bool.toNat_le s.chkthread
    omega
  · intro hchk hcon opened
    rw [hchk] at hthread
    obtain ⟨check,hcheck⟩ := List.length_eq_one_iff.mp hthread
    cases check with
    | retrying =>
        obtain ⟨t,hrun,hlen⟩ := retry_next (by rw [hcheck]; rfl)
        exact ⟨_,t,Or.inl rfl,hrun,hlen⟩
    | testing =>
        obtain ⟨t,hrun,hlen⟩ := test_next (by rw [hcheck]; rfl) hcon
        exact ⟨_,t,Or.inr rfl,hrun,hlen⟩

/-- Whatever happened before, `CheckConnect` leaves one check thread. -/
theorem supervised_checkConnect (h : s.checks.length = s.chkthread.toNat) :
    Supervised s.checkConnect := by
  unfold Client.checkConnect
  split_ifs with hchk
  · refine ⟨h,?_⟩
    intro hfalse
    rw [hchk] at hfalse
    cases hfalse
  · refine ⟨?_,fun hfalse => by cases hfalse⟩
    simp [h,hchk]

/-- With its check thread running the client is supervised whatever it does. -/
theorem Supervised.running (hthread : s.checks.length = s.chkthread.toNat)
    (hchk : s.chkthread = true) : Supervised s := by
  refine ⟨hthread,?_⟩
  intro hfalse
  rw [hchk] at hfalse
  cases hfalse

theorem Supervised.frame (h : Supervised s) (hchecks : t.checks.length = s.checks.length)
    (hchk : t.chkthread = s.chkthread) (hfirst : FirstConnect s → FirstConnect t) :
    Supervised t := by
  refine ⟨by rw [hchecks,h.thread,hchk],?_⟩
  intro hfalse
  exact hfirst (h.first (hchk.symm.trans hfalse))

/-- The handler of the first connect finds one attempt and no connection. -/
theorem Supervised.handling (h : Supervised s) {i : ℕ} {a : Attempt} (ha : s.attempts[i]? = some a)
    (hchk : s.chkthread = false) :
    s.conns ≠ [] ∧ s.attempts.eraseIdx i = [] ∧ s.isconnected = false := by
  rcases h.first hchk with ⟨_,hnil,_⟩ | ⟨b,hne,hone,hcon⟩ | ⟨_,hnil,_⟩
  · simp [hnil] at ha
  · rw [hone,List.getElem?_singleton] at ha
    split_ifs at ha with hi
    exact ⟨hne,by rw [hone,hi]; rfl,hcon⟩
  · simp [hnil] at ha

theorem Supervised.handle (h : Supervised s) {i : ℕ} {ip : Option String} {port : Option ℕ}
    (he : ¬ GivesUp s (.handle i ip port)) (hs : step abi H s (.handle i ip port) = some t) :
    Supervised t := by
  obtain ⟨a,error,ha,hres,hrun⟩ := step_handle.mp hs
  obtain ⟨k,c,hk,hc,hcases⟩ := handleConnection_cases hrun
  rcases hcases with ⟨hclosed,rfl⟩ | ⟨_,_,rfl⟩ | ⟨_,_,c',rfl⟩
  · refine Supervised.running h.thread ?_
    change s.chkthread = true
    by_contra hchk
    exact he ⟨⟨a,ha,by simp [hres]⟩,by simpa using hchk,k,hk,c,hc,hclosed⟩
  · exact supervised_checkConnect h.thread
  · refine ⟨h.thread,?_⟩
    intro hchk
    obtain ⟨hne,hnil,_⟩ := h.handling ha hchk
    exact .connected (by simpa using hne) hnil rfl

theorem FirstConnect.of_eq (h : FirstConnect s) (hconns : t.conns = [] ↔ s.conns = [])
    (ha : t.attempts = s.attempts) (hcon : t.isconnected = s.isconnected) : FirstConnect t := by
  rcases h with ⟨hnil,hattempts,hfalse⟩ | ⟨a,hne,hone,hfalse⟩ | ⟨hne,hattempts,htrue⟩
  · exact .unstarted (hconns.mpr hnil) (ha.trans hattempts) (hcon.trans hfalse)
  · exact .connecting a (fun hnil => hne (hconns.mp hnil)) (ha.trans hone) (hcon.trans hfalse)
  · exact .connected (fun hnil => hne (hconns.mp hnil)) (ha.trans hattempts) (hcon.trans htrue)

theorem Supervised.step (h : Supervised s) (he : ¬ GivesUp s e)
    (hs : ClientState.step abi H s e = some t) : Supervised t := by
  cases e with
  | start opened =>
      obtain ⟨hnil,rfl⟩ := step_start.mp hs
      refine h.frame rfl rfl ?_
      intro hfirst
      rcases hfirst with ⟨_,hattempts,hfalse⟩ | ⟨_,hne,_,_⟩ | ⟨hne,_,_⟩
      · exact .connecting ⟨0,none⟩ (by simp [Client.startConnect])
          (by simp [Client.startConnect,hattempts,hnil]) hfalse
      · exact absurd hnil hne
      · exact absurd hnil hne
  | test n =>
      obtain ⟨_,rfl⟩ := step_test.mp hs
      exact h.frame List.length_set rfl fun hfirst => hfirst.of_eq Iff.rfl rfl rfl
  | retry n opened =>
      obtain ⟨hcheck,rfl⟩ := step_retry.mp hs
      refine Supervised.running (List.length_set.trans h.thread) ?_
      change s.chkthread = true
      by_contra hchk
      have hthread := h.thread
      rw [Bool.not_eq_true] at hchk
      rw [hchk] at hthread
      rw [List.length_eq_zero_iff.mp hthread] at hcheck
      cases hcheck
  | connectDone i error =>
      obtain ⟨a,ha,_,_,rfl⟩ := step_connectDone.mp hs
      refine h.frame rfl rfl ?_
      intro hfirst
      rcases hfirst with ⟨_,hnil,_⟩ | ⟨b,hne,hone,hfalse⟩ | ⟨_,hnil,_⟩
      · simp [hnil] at ha
      · rw [hone,List.getElem?_singleton] at ha
        split_ifs at ha with hi
        exact .connecting {a with result := some error} hne (by simp [hone,hi]) hfalse
      · simp [hnil] at ha
  | handle i ip port => exact h.handle he hs
  | connection c e =>
      obtain ⟨k,k',_,_,_,rfl⟩ := step_connection.mp hs
      split_ifs
      · apply supervised_checkConnect
        exact h.thread
      · exact h.frame rfl rfl fun hfirst => hfirst.of_eq (by simp) rfl rfl

/-- After the handler has given up nothing is pending. -/
theorem Supervised.gaveUp (h : Supervised s) (he : GivesUp s e) :
    ∃ t, ClientState.step abi H s e = some t ∧ ¬ KeepsTrying abi H t := by
  cases e with
  | handle i ip port =>
      obtain ⟨⟨a,ha,hres⟩,hchk,k,hk,c,hc,hclosed⟩ := he
      obtain ⟨hne,hnil,hcon⟩ := h.handling ha hchk
      obtain ⟨error,herror⟩ := Option.ne_none_iff_exists'.mp hres
      refine ⟨{s with attempts := s.attempts.eraseIdx i},step_handle.mpr ⟨a,error,ha,herror,?_⟩,?_⟩
      · have hk' : s.connection = some k := hk
        have hc' : s.conns[k]? = some c := hc
        simp [Client.handleConnection,hk',hc',hclosed]
      · intro htry
        rcases htry.pending hne hcon with hattempts | htrue
        · exact hattempts hnil
        · rw [hchk] at htrue
          cases htrue
  | start _ | test _ | retry _ _ | connectDone _ _ | connection _ _ => exact absurd he id

end Steps

/-- The client keeps trying in every state of a run exactly if no completion of
it finds a socket that is not open before the check thread is started. -/
theorem keeps_trying_iff (abi : Abi) (H : Bytes → ℕ) (es : List ClientState.Event) :
    AllStates (step abi H) (KeepsTrying abi H) {} es ↔
      AllSteps (step abi H) (fun s e => ¬ GivesUp s e) {} es := by
  apply allStates_iff_allSteps (I := Supervised) (fun _ h => h.keepsTrying)
    (fun _ _ _ h he hs => h.step he hs)
  · exact fun _ _ h he => h.gaveUp (not_not.mp he)
  · exact ⟨rfl,fun _ => .unstarted rfl rfl rfl⟩

/-- The first socket cannot be opened. -/
theorem first_open_fails : ¬ ∀ es : List ClientState.Event,
    AllStates (step (lp64 .little) List.length) (KeepsTrying (lp64 .little) List.length) {} es := by
  intro h
  have hrun : ∃ s ∈ exec (step (lp64 .little) List.length) {}
      [.start false,.connectDone 0 24,.handle 0 none none],
      s.conns ≠ [] ∧ s.isconnected = false ∧ s.attempts = [] ∧ s.chkthread = false := by decide
  obtain ⟨s,hs,hne,hcon,hnil,hchk⟩ := hrun
  rcases ((h _).last hs).pending hne hcon with hattempts | htrue
  · exact hattempts hnil
  · rw [hchk] at htrue
    cases htrue

end SindiaRpc.ClientRetries
