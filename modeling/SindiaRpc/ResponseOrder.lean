import SindiaRpc.CallCorrelation

/-!
# A response and the steps of its call

`Call` stores its promise after it has written the request, so the response may
be dispatched before there is a promise to give it to; it is then dropped and
the call runs into its timeout. A response that finds the promise is returned,
however the run goes on.
-/
namespace SindiaRpc.ResponseOrder
open MessageFrames DispatcherTable PromiseTables RpcChannel RpcProcess GuardedRuns PromiseKeys
  CallCorrelation ListUpdates

variable {κ : Type*}

/-- A step of invocation `t`. -/
def own (t : ℕ) : Event κ → Bool
  | .run u | .expire u => u = t
  | _ => false

/-- `Call` is entered only when no other call is in progress. -/
def Solo (s : Process κ) : Event κ → Prop
  | .call _ _ _ => ∀ c ∈ s.calls, c.pc.ended = true
  | _ => True

instance (s : Process κ) : ∀ e, Decidable (Solo s e)
  | .call _ _ _ => inferInstanceAs (Decidable (∀ c ∈ s.calls, c.pc.ended = true))
  | .reghandler _ _ | .setConnection _ | .run _ | .expire _ | .receive _ _ => .isTrue trivial

/-- The request has been written and `wait_for` has not returned. -/
def Awaiting (pc : Pc) : Prop := pc = .loadId ∨ pc = .register ∨ pc = .wait

instance (pc : Pc) : Decidable (Awaiting pc) := inferInstanceAs (Decidable (_ ∨ _))

/-- However the run goes on, the call ends only by returning `RPCOK` with
`body`, and it has done so after three more of its own steps. -/
structure Answered (H : Bytes → ℕ) (o : ByteOrder) (s : Process κ) (t : ℕ) (body : Bytes) :
    Prop where
  result : ∀ es s', exec (step H o) s es = some s' → ∃ d, s'.calls[t]? = some d ∧
    (d.pc.ended = true → d.pc = .returned .rpcOk ∧ d.res = body) ∧
    (3 ≤ es.countP (own t) → d.pc = .returned .rpcOk)
  returns : ∃ s', exec (step H o) s (List.replicate 3 (.run t)) = some s'

/-! ### A promise that has its value -/

/-- The call is on its way from `wait_for` to the return of `body`. -/
def Returning (body : Bytes) (d : Invocation) : Prop :=
  d.pc = .wait ∨ d.pc = .get ∨ d.res = body ∧ (d.pc = .erase ∨ d.pc = .returned .rpcOk)

def Due (s : Process κ) (t : ℕ) (body : Bytes) : Prop :=
  s.channel.prommap.states t = .value body ∧ ∃ d, s.calls[t]? = some d ∧ Returning body d

/-- Statements of `GetResponse` before its return. -/
def remaining : Pc → ℕ
  | .wait => 3
  | .get => 2
  | .erase => 1
  | _ => 0

def rank (t : ℕ) (s : Process κ) : ℕ := ((s.calls[t]?.map fun d => remaining d.pc)).getD 0

section Steps
variable {H : Bytes → ℕ} {o : ByteOrder} {s s' : Process κ} {e : Event κ} {t : ℕ} {k : κ}
  {c d : Invocation} {body : Bytes} {msg : Message}

theorem rank_eq (hd : s.calls[t]? = some d) : rank t s = remaining d.pc := by
  rw [rank,hd]
  rfl

/-- The steps of the others leave a call alone. -/
theorem call_of_other (hs : step H o s e = some s') (he : own t e = false)
    (hd : s.calls[t]? = some d) : s'.calls[t]? = some d := by
  cases step_change hs with
  | other e channel calls | connect conn channel calls => rwa [calls]
  | enter name req res channel calls =>
      rw [calls]
      exact getElem?_concat_of_eq_some hd
  | statement e u c c' event mem done calls =>
      have hne : u ≠ t := by
        intro heq
        subst heq
        rcases event with rfl | ⟨rfl,_⟩ <;> simp [own] at he
      rwa [calls,List.getElem?_set_ne hne]
  | response k msg prom value type find data pending channel calls => rwa [calls]

/-- A statement of a call that is due. -/
theorem getResponse_due (hst : s.channel.prommap.states t = .value body)
    (hd : Returning body d) :
    remaining (s.channel.getResponse t d).call.pc = remaining d.pc - 1 ∧
      Returning body (s.channel.getResponse t d).call := by
  rcases hd with hpc | hpc | ⟨hres,hpc | hpc⟩
  · simp [Rpcchannel.getResponse,Returning,hpc,hst,remaining]
  · simp [Rpcchannel.getResponse,Returning,hpc,hst,remaining]
  · simp [Rpcchannel.getResponse,Returning,hpc,hres,remaining]
  · simp [Rpcchannel.getResponse,Returning,hpc,hres,remaining]

/-- A due call executes statements of `GetResponse` only. -/
theorem call_due (hd : Returning body d) :
    s.channel.call H o t d = .ok (s.channel.getResponse t d) := by
  rcases hd with hpc | hpc | ⟨_,hpc | hpc⟩ <;> simp only [Rpcchannel.call,hpc]

theorem Due.own_step (h : Due s t body) (he : own t e = true) (hs : step H o s e = some s') :
    ∃ d, s.calls[t]? = some d ∧ s' = s.apply t (s.channel.getResponse t d) := by
  obtain ⟨hst,d,hd,hdue⟩ := h
  cases e with
  | run u =>
      obtain rfl : u = t := by simpa [own] using he
      obtain ⟨c,e,hc,he,rfl⟩ := step_run.mp hs
      obtain rfl := Option.some.inj (hd.symm.trans hc)
      rw [call_due hdue,Except.ok.injEq] at he
      exact ⟨d,hd,by rw [he]⟩
  | expire u =>
      obtain rfl : u = t := by simpa [own] using he
      obtain ⟨c,hc,hpc,rfl⟩ := step_expire.mp hs
      obtain rfl := Option.some.inj (hd.symm.trans hc)
      refine ⟨d,hd,?_⟩
      rw [Rpcchannel.expire,if_neg (by rw [hst]; simp)]
  | reghandler _ _ | setConnection _ | call _ _ _ | receive _ _ => cases he

theorem Due.step (h : Due s t body) (hs : RpcProcess.step H o s e = some s') :
    Due s' t body ∧ rank t s' ≤ rank t s - (own t e).toNat := by
  have hvalue : s'.channel.prommap.states t = .value body := by
    rw [settled_step (by rw [h.1]; simp) hs,h.1]
  cases he : own t e with
  | false =>
      obtain ⟨_,d,hd,hdue⟩ := h
      have hd' := call_of_other hs he hd
      refine ⟨⟨hvalue,d,hd',hdue⟩,?_⟩
      rw [rank_eq hd,rank_eq hd']
      simp
  | true =>
      obtain ⟨d,hd,rfl⟩ := h.own_step he hs
      obtain ⟨hst,d',hd',hdue⟩ := h
      obtain rfl := Option.some.inj (hd.symm.trans hd')
      obtain ⟨hrem,hnext⟩ := getResponse_due hst hdue
      have hself := Process.calls_apply_self hd (s.channel.getResponse t d)
      refine ⟨⟨hvalue,_,hself,hnext⟩,?_⟩
      rw [rank_eq hd,rank_eq hself,hrem]
      simp

theorem Due.run_enabled (h : Due s t body) : ∃ s', RpcProcess.step H o s (.run t) = some s' := by
  obtain ⟨_,d,hd,hdue⟩ := h
  exact ⟨_,step_run.mpr ⟨d,_,hd,call_due hdue,rfl⟩⟩

theorem Due.runs (h : Due s t body) (n : ℕ) :
    ∃ s', exec (RpcProcess.step H o) s (List.replicate n (.run t)) = some s' := by
  induction n generalizing s with
  | zero => exact ⟨s,rfl⟩
  | succ n ih =>
      obtain ⟨u,hu⟩ := h.run_enabled (H := H) (o := o)
      obtain ⟨s',hs'⟩ := ih (h.step hu).1
      exact ⟨s',(exec_cons_eq_some _).mpr ⟨u,hu,hs'⟩⟩

theorem Due.answered (h : Due s t body) : Answered H o s t body where
  result es s' hrun := by
    obtain ⟨⟨_,d,hd,hdue⟩,hrank⟩ : Due s' t body ∧ rank t s' ≤ rank t s - es.countP (own t) := by
      apply exec_rank (RpcProcess.step H o) (A := fun _ => True) ?_ (fun _ _ => trivial) h hrun
      exact fun s e s' _ hs hstep => hs.step hstep
    have hbound : rank t s ≤ 3 := by
      obtain ⟨_,c,hc,_⟩ := h
      rw [rank_eq hc]
      cases c.pc <;> simp [remaining]
    rw [rank_eq hd] at hrank
    refine ⟨d,hd,?_,?_⟩
    · intro hended
      rcases hdue with hpc | hpc | ⟨hres,hpc | hpc⟩
      · simp [hpc,Pc.ended] at hended
      · simp [hpc,Pc.ended] at hended
      · simp [hpc,Pc.ended] at hended
      · exact ⟨hpc,hres⟩
    · intro hcount
      have hzero : remaining d.pc = 0 := by omega
      rcases hdue with hpc | hpc | ⟨_,hpc | hpc⟩
      · simp [hpc,remaining] at hzero
      · simp [hpc,remaining] at hzero
      · simp [hpc,remaining] at hzero
      · exact hpc
  returns := h.runs 3

end Steps

/-! ### A response that is dispatched -/

section Responses
variable {H : Bytes → ℕ} {o : ByteOrder} {s s' : Process κ} {t u : ℕ} {k : κ} {c : Invocation}
  {body : Bytes} {msg : Message}

/-- The state in which a response has been given to promise `u`. -/
def fulfilled (s : Process κ) (k : κ) (msg : Message) (u : ℕ) (body : Bytes) : Process κ :=
  {s.noted k msg with channel := {s.channel with prommap := s.channel.prommap.fulfil u body}}

theorem step_found (hm : HasType msg .response)
    (hfind : s.channel.prommap.find msg.header.id = some u) (hbody : msg.dataString = some body)
    (hpending : s.channel.prommap.states u = .pending) :
    step H o s (.receive k msg) = some (fulfilled s k msg u body) := by
  apply step_receive.mpr
  refine ⟨⟨(fulfilled s k msg u body).channel,[],[]⟩,?_,?_⟩
  · rw [dispatch,if_pos hm]
    simp only [Rpcchannel.setResponse,Message.getId,UInt32.ofNat_toNat,hfind,hbody]
    rw [(s.channel.prommap.setValue_eq_some).mpr ⟨hpending,rfl⟩]
    rfl
  · simp [Process.deliver,Process.noted,fulfilled]

/-- A response nobody waits for changes nothing. -/
theorem step_dropped (hm : HasType msg .response)
    (hfind : s.channel.prommap.find msg.header.id = none) :
    step H o s (.receive k msg) = some (s.noted k msg) := by
  apply step_receive.mpr
  refine ⟨⟨s.channel,[],[]⟩,?_,?_⟩
  · rw [dispatch,if_pos hm]
    simp only [Rpcchannel.setResponse,Message.getId,UInt32.ofNat_toNat,hfind]
  · simp [Process.deliver,Process.noted]

theorem step_expired (hc : s.calls[t]? = some c) (hpc : c.pc = .wait)
    (hpending : s.channel.prommap.states t = .pending) :
    step H o s (.expire t) =
      some (s.apply t ⟨s.channel,{c with pc := .returned .rpcTimeout},[]⟩) := by
  apply step_expire.mpr
  exact ⟨c,hc,hpc,by rw [Rpcchannel.expire,if_pos hpending]⟩

/-- The promise of a call that has not stored it is pending. -/
theorem pending_of_unregistered (h : Keyed s) (hc : s.calls[t]? = some c)
    (hpc : c.pc.registered = false) : s.channel.prommap.states t = .pending := by
  by_contra hne
  obtain ⟨_,hown⟩ := h.settled t hne
  rw [(hown.of_call hc).1] at hpc
  cases hpc

theorem register_step (h : Keyed s) (hc : s.calls[t]? = some c) (hpc : c.pc = .register) :
    ∃ s' c', step H o s (.run t) = some s' ∧ s'.calls[t]? = some c' ∧ c'.pc = .wait ∧
      s'.channel.prommap.states t = .pending := by
  have hpending := pending_of_unregistered h hc (by rw [hpc]; rfl)
  refine ⟨_,_,step_run.mpr ⟨c,_,hc,by simp only [Rpcchannel.call,hpc]; rfl,rfl⟩,
    getElem?_set_of_eq_some hc,?_,?_⟩
  · simp only [Rpcchannel.getResponse,hpc]
  · simp only [Rpcchannel.getResponse,hpc,Process.apply,PromiseTable.states_assign]
    rw [PromiseTable.states_discard_of_ne,hpending]
    intro hfind
    have hreg := ((h.entry _ _ hfind).of_call hc).1
    rw [hpc] at hreg
    cases hreg

/-- A call that still has to wait, and whose promise is pending, can time
out. -/
theorem times_out (h : Keyed s) (hc : s.calls[t]? = some c) (hpc : Awaiting c.pc)
    (hpending : s.channel.prommap.states t = .pending) :
    ∃ es s' d, exec (step H o) s es = some s' ∧ s'.calls[t]? = some d ∧
      d.pc = .returned .rpcTimeout := by
  rcases hpc with hpc | hpc | hpc
  · -- evaluate the key, then as below
    let c₁ : Invocation := {c with pc := .register, callid := s.channel.callid}
    let s₁ := s.apply t ⟨s.channel,c₁,[]⟩
    have hs₁ : step H o s (.run t) = some s₁ :=
      step_run.mpr ⟨c,_,hc,by simp only [Rpcchannel.call,hpc]; rfl,rfl⟩
    have hc₁ : s₁.calls[t]? = some c₁ := Process.calls_apply_self hc _
    obtain ⟨s₂,c₂,hs₂,hc₂,hpc₂,hpending₂⟩ := register_step (h.step hs₁) hc₁ rfl
    exact ⟨[.run t,.run t,.expire t],_,_,by
      rw [exec_cons,hs₁,Option.bind_some,exec_cons,hs₂,Option.bind_some,exec_cons,
        step_expired hc₂ hpc₂ hpending₂]
      rfl,getElem?_set_of_eq_some hc₂,rfl⟩
  · obtain ⟨s₂,c₂,hs₂,hc₂,hpc₂,hpending₂⟩ := register_step h hc hpc
    exact ⟨[.run t,.expire t],_,_,by
      rw [exec_cons,hs₂,Option.bind_some,exec_cons,step_expired hc₂ hpc₂ hpending₂]
      rfl,getElem?_set_of_eq_some hc₂,rfl⟩
  · exact ⟨[.expire t],_,_,by rw [exec_cons,step_expired hc hpc hpending]; rfl,
      getElem?_set_of_eq_some hc,rfl⟩

end Responses

/-! ### One call at a time -/

def AtMostOne (s : Process κ) : Prop := ∀ (i j : ℕ) (c d : Invocation), s.calls[i]? = some c →
  s.calls[j]? = some d → i ≠ j → c.pc.ended = true ∨ d.pc.ended = true

section Solo
variable {H : Bytes → ℕ} {o : ByteOrder} {s s' : Process κ} {e : Event κ} {t u : ℕ}
  {c c' : Invocation}

theorem Statement.ended {ch ch' : Rpcchannel κ} (hst : Statement t ch c ch' c')
    (hc : c.pc.ended = true) : c'.pc.ended = true := by
  cases hst with
  | stay => exact hc
  | prepare pc pc' msg after | finish pc pc' msg after id =>
      cases hpc : c.pc <;> simp_all [Pc.ended,Pc.unnumbered,Pc.numbered]
  | refuse pc | number pc _ _ | ask pc | register pc | timeout pc _ | ready pc _ | get pc _ _
  | throw pc _ | erase pc => simp [pc,Pc.ended] at hc

theorem AtMostOne.step (h : AtMostOne s) (he : Solo s e)
    (hs : RpcProcess.step H o s e = some s') : AtMostOne s' := by
  intro i j c d hc hd hij
  cases step_change hs with
  | other e channel calls | connect conn channel calls =>
      rw [calls] at hc hd
      exact h i j c d hc hd hij
  | enter name req res channel calls =>
      rw [calls] at hc hd
      rcases getElem?_concat_cases hc with hc | ⟨hi,_⟩
      · exact Or.inl (he c (List.mem_of_getElem? hc))
      · rcases getElem?_concat_cases hd with hd | ⟨hj,_⟩
        · exact Or.inr (he d (List.mem_of_getElem? hd))
        · exact absurd (hi.trans hj.symm) hij
  | statement e t a a' event mem done calls =>
      rw [calls] at hc hd
      rcases getElem?_set_cases hc with ⟨hi,hca⟩ | ⟨_,hold⟩
      · rcases getElem?_set_cases hd with ⟨hj,_⟩ | ⟨_,hold⟩
        · exact absurd (hi.trans hj.symm) hij
        · rw [hca]
          exact (h t j a d mem hold (hi ▸ hij)).imp_left fun hended => Statement.ended done hended
      · rcases getElem?_set_cases hd with ⟨hj,hda⟩ | ⟨_,hold'⟩
        · rw [hda]
          exact (h i t c a hold mem (hj ▸ hij)).imp_right fun hended => Statement.ended done hended
        · exact h i j c d hold hold' hij
  | response k msg prom value type find data pending channel calls =>
      rw [calls] at hc hd
      exact h i j c d hc hd hij

theorem AtMostOne.calm (h : AtMostOne s) : Calm s e := by
  cases e with
  | run t =>
      intro c hc hpc d hd
      obtain ⟨u,hu⟩ := List.mem_iff_getElem?.mp hd
      by_cases htu : t = u
      · subst htu
        obtain rfl := Option.some.inj (hc.symm.trans hu)
        rw [hpc]
        rfl
      · rcases h t u c d hc hu htu with hended | hended
        · rw [hpc] at hended
          cases hended
        · cases hdpc : d.pc <;> simp_all [Pc.ended,Pc.numbered]
  | reghandler _ _ | setConnection _ | call _ _ _ | expire _ | receive _ _ => trivial

theorem AtMostOne.init (conn : Option κ) : AtMostOne (RpcProcess.init conn) := by
  intro i j c d hc
  cases hc

theorem run_solo {conn : Option κ} {es : List (Event κ)}
    (hes : AllSteps (RpcProcess.step H o) Solo (init conn) es)
    (hrun : exec (RpcProcess.step H o) (init conn) es = some s) (hlen : s.calls.length < 2 ^ 32) :
    Correlation s := by
  have hall := allStates_of_allSteps
    (I := fun s : Process κ => AtMostOne s ∧ (s.calls.length < 2 ^ 32 → Correlation s))
    ?_ ⟨AtMostOne.init conn,fun _ => Correlation.init conn⟩ hes
  · exact (hall.last hrun).2 hlen
  · intro s e s' hboth he hstep
    rcases hboth with ⟨hone,hcor⟩
    refine ⟨hone.step he hstep,?_⟩
    intro hlen
    have hle := calls_length_step hstep
    exact (hcor (by omega)).step hlen hone.calm hstep

end Solo

/-- With one call in progress, its response is returned, whatever comes
between, exactly if the call had stored its promise when it was dispatched. -/
theorem answered_iff_registered (H : Bytes → ℕ) (o : ByteOrder) (conn : Option κ)
    (es : List (Event κ)) (s : Process κ) (t : ℕ) (c : Invocation) (k : κ) (msg : Message)
    (body : Bytes) (hsolo : AllSteps (step H o) Solo (init conn) es)
    (hrun : exec (step H o) (init conn) es = some s) (hlen : s.calls.length < 2 ^ 32)
    (hc : s.calls[t]? = some c) (hpc : Awaiting c.pc)
    (hpending : s.channel.prommap.states t = .pending) (hm : HasType msg .response)
    (hid : msg.header.id = c.msg.header.id) (hbody : msg.dataString = some body) :
    (∃ s', step H o s (.receive k msg) = some s' ∧ Answered H o s' t body) ↔
      s.channel.prommap.find c.msg.header.id = some t := by
  have hcor := run_solo hsolo hrun hlen
  have hticket : ticket c = some c.msg.header.id.toNat := by
    rcases hpc with hpc | hpc | hpc
    · exact ticket_of_numbered (by rw [hpc]; rfl)
    · exact ticket_of_asked (by rw [hpc]; rfl)
    · exact ticket_of_asked (by rw [hpc]; rfl)
  rw [← hid]
  constructor
  · intro hex
    rcases hex with ⟨s',hs',hans⟩
    cases hfind : s.channel.prommap.find msg.header.id with
    | none =>
        -- the response is dropped, and the call still times out
        rw [step_dropped hm hfind] at hs'
        obtain rfl := Option.some.inj hs'
        obtain ⟨fs,u,d,hfs,hd,hdpc⟩ := times_out (H := H) (o := o)
          (hcor.keyed.step (step_dropped (H := H) (o := o) (k := k) hm hfind)) hc hpc hpending
        obtain ⟨d',hd',hended,_⟩ := hans.result fs u hfs
        obtain rfl := Option.some.inj (hd.symm.trans hd')
        have hok := (hended (by rw [hdpc]; rfl)).1
        rw [hdpc] at hok
        cases hok
    | some u =>
        obtain ⟨d,hd,hreg,hkey⟩ := hcor.keyed.entry _ _ hfind
        have hda := asked_of_registered hreg
        have hdid := hcor.own d (List.mem_of_getElem? hd) hda
        rw [same_ticket hcor.numbered hd hc (ticket_of_asked hda) hticket
          (hdid.symm.trans (hkey.trans hid))]
  · intro hfind
    refine ⟨_,step_found hm hfind hbody hpending,?_⟩
    have hreg := ((hcor.keyed.entry _ _ hfind).of_call hc).1
    apply Due.answered
    refine ⟨by simp [fulfilled],c,hc,Or.inl ?_⟩
    rcases hpc with hpc | hpc | hpc
    · simp [hpc,Pc.registered,Pc.asked] at hreg
    · simp [hpc,Pc.registered] at hreg
    · exact hpc

/-- The response to the first call of a process. -/
def firstResponse : Message := (Message.build .little [9] 2 1 0 0).getD .empty

theorem answered_iff_registered_waiting :
    ∃ s ∈ exec (step (fun _ => 0) .little) (init (some 0)) (.call [1] [] [] :: statements 0 9),
      ∃ c ∈ s.calls[0]?,
        ((∃ s', step (fun _ => 0) .little s (.receive 0 firstResponse) = some s' ∧
            Answered (fun _ => 0) .little s' 0 [9]) ↔
          s.channel.prommap.find c.msg.header.id = some 0) := by
  have hrun : ∃ s ∈ exec (step (fun _ => 0) .little) (init (some 0))
      (.call [1] [] [] :: statements 0 9), s.calls.length < 2 ^ 32 ∧
        s.channel.prommap.states 0 = .pending ∧ ∃ c ∈ s.calls[0]?, Awaiting c.pc ∧
          firstResponse.header.id = c.msg.header.id := by decide
  obtain ⟨s,hs,hlen,hpending,c,hc,hpc,hid⟩ := hrun
  refine ⟨s,hs,c,hc,?_⟩
  exact answered_iff_registered _ _ _ _ s 0 c 0 firstResponse [9] (by decide) hs hlen hc hpc
    hpending (by decide) hid (by decide)

/-- A response that comes between `Write` and `GetResponse` is lost. -/
theorem early_response_lost :
    ¬ ∀ (es : List (Event ℕ)) (s s' : Process ℕ) (t : ℕ) (c : Invocation) (k : ℕ) (msg : Message)
      (body : Bytes), AllSteps (step (fun _ => 0) .little) Solo (init (some 0)) es →
      exec (step (fun _ => 0) .little) (init (some 0)) es = some s → s.calls.length < 2 ^ 32 →
      s.calls[t]? = some c → Awaiting c.pc → s.channel.prommap.states t = .pending →
      HasType msg .response → msg.header.id = c.msg.header.id → msg.dataString = some body →
      step (fun _ => 0) .little s (.receive k msg) = some s' →
        Answered (fun _ => 0) .little s' t body := by
  intro h
  have hrun : ∃ s ∈ exec (step (fun _ => 0) .little) (init (some 0))
      (.call [1] [] [] :: statements 0 7), s.calls.length < 2 ^ 32 ∧
        s.channel.prommap.states 0 = .pending ∧
        (∃ c ∈ s.calls[0]?, Awaiting c.pc ∧ firstResponse.header.id = c.msg.header.id) ∧
        ∃ s' ∈ step (fun _ => 0) .little s (.receive 0 firstResponse),
          ∃ u ∈ exec (step (fun _ => 0) .little) s' (statements 0 2 ++ [.expire 0]),
            ∃ d ∈ u.calls[0]?, d.pc = .returned .rpcTimeout := by decide
  obtain ⟨s,hs,hlen,hpending,⟨c,hc,hpc,hid⟩,s',hs',u,hu,d,hd,hdpc⟩ := hrun
  have hans := h _ s s' 0 c 0 firstResponse [9] (by decide) hs hlen hc hpc hpending (by decide)
    hid (by decide) hs'
  obtain ⟨d',hd',hended,_⟩ := hans.result _ u hu
  obtain rfl := Option.some.inj (hd.symm.trans hd')
  have hok := (hended (by rw [hdpc]; rfl)).1
  rw [hdpc] at hok
  cases hok

end SindiaRpc.ResponseOrder
