import SindiaRpc.ResponseOrder
import SindiaRpc.ConnectionIsolation

/-!
# Which response a promise got its value from

A promise gets a value at one step of a run only: the dispatch of a response
under whose id it is found. Until its call takes it out of the table it is
still found there, and a second response with the id throws. With one call at
a time, what a call returns was dispatched for it and after its registration.
-/
namespace SindiaRpc.ResponseHistory
open MessageFrames DispatcherTable PromiseTables RpcChannel RpcProcess GuardedRuns PromiseKeys
  CallCorrelation ResponseOrder ListUpdates

variable {κ : Type*}

/-- Promises in the table have not been destroyed. -/
def Unbroken (s : Process κ) : Prop :=
  ∀ k u, s.channel.prommap.find k = some u → s.channel.prommap.states u ≠ .broken

section Entries
variable {H : Bytes → ℕ} {o : ByteOrder} {s s' : Process κ} {e : Event κ} {t u : ℕ}
  {c c' : Invocation} {k n : UInt32} {body : Bytes}

/-- A promise is found under one key. -/
theorem same_entry (h : Keyed s) (hk : s.channel.prommap.find k = some u)
    (hn : s.channel.prommap.find n = some u) : k = n := by
  obtain ⟨c,hc,_,hkey⟩ := h.entry k u hk
  rw [← hkey]
  exact ((h.entry n u hn).of_call hc).2

/-- The promise found under another key is not the one discarded. -/
theorem states_discard_other (h : Keyed s) (hk : s.channel.prommap.find k = some u)
    (hne : k ≠ n) :
    (s.channel.prommap.discard n).states u = s.channel.prommap.states u := by
  apply PromiseTable.states_discard_of_ne
  intro hn
  exact hne (same_entry h hk hn)

theorem Statement.unbroken (hkeyed : Keyed s) (h : Unbroken s) (hc : s.calls[t]? = some c)
    (hst : Statement t s.channel c s'.channel c')
    (hfind : s'.channel.prommap.find k = some u) : s'.channel.prommap.states u ≠ .broken := by
  generalize s'.channel = ch' at hst hfind
  cases hst with
  | register pc =>
      by_cases hk : k = c.callid
      · rw [hk,PromiseTable.find_assign] at hfind
        obtain rfl := Option.some.inj hfind
        -- the new promise was not in the table before
        have hpending := pending_of_unregistered hkeyed hc (by rw [pc]; rfl)
        rw [PromiseTable.states_assign,PromiseTable.states_discard_of_ne,hpending]
        · exact nofun
        · intro hold
          have hreg := ((hkeyed.entry _ _ hold).of_call hc).1
          rw [pc] at hreg
          cases hreg
      · rw [PromiseTable.find_assign_of_ne hk] at hfind
        rw [PromiseTable.states_assign,states_discard_other hkeyed hfind hk]
        exact h k u hfind
  | erase pc =>
      by_cases hk : k = c.callid
      · rw [hk,PromiseTable.find_erase] at hfind
        cases hfind
      · rw [PromiseTable.find_erase_of_ne hk] at hfind
        rw [PromiseTable.states_erase,states_discard_other hkeyed hfind hk]
        exact h k u hfind
  | stay | refuse _ | prepare _ _ _ _ | number _ _ _ | finish _ _ _ _ _ | ask _ | timeout _ _
  | ready _ _ | get _ _ _ | throw _ _ => exact h k u hfind

theorem Unbroken.step (h : Unbroken s) (hkeyed : Keyed s)
    (hs : RpcProcess.step H o s e = some s') : Unbroken s' := by
  intro k u hfind
  cases step_change hs with
  | other e channel calls | connect conn channel calls | enter name req res channel calls =>
      rw [channel] at hfind ⊢
      exact h k u hfind
  | statement e t c c' event mem done calls =>
      exact Statement.unbroken hkeyed h mem done hfind
  | response k' msg prom value type find data pending channel calls =>
      rw [channel] at hfind ⊢
      by_cases hu : u = prom
      · simp [hu]
      · rw [PromiseTable.states_fulfil_of_ne _ value hu]
        exact h k u hfind

theorem run_unbroken {conn : Option κ} {es : List (Event κ)}
    (h : exec (RpcProcess.step H o) (init conn) es = some s) : Unbroken s := by
  have hboth : Keyed s ∧ Unbroken s := by
    apply exec_preserves (RpcProcess.step H o) (P := fun s => Keyed s ∧ Unbroken s)
      ?_ ⟨init_keyed conn,nofun⟩ h
    intro u e v hu hv
    exact ⟨hu.1.step hv,hu.2.step hu.1 hv⟩
  exact hboth.2

/-- Only a response gives a promise its value. -/
theorem value_step (hs : RpcProcess.step H o s e = some s')
    (hnot : s.channel.prommap.states u ≠ .value body)
    (hvalue : s'.channel.prommap.states u = .value body) :
    ∃ k msg, e = .receive k msg ∧ HasType msg .response ∧ msg.dataString = some body ∧
      s.channel.prommap.find msg.header.id = some u := by
  cases step_change hs with
  | other e channel calls | connect conn channel calls | enter name req res channel calls =>
      rw [channel] at hvalue
      exact absurd hvalue hnot
  | statement e t c c' event mem done calls =>
      exact absurd (ConnectionIsolation.Statement.value done hvalue) hnot
  | response k msg prom value type find data pending channel calls =>
      rw [channel] at hvalue
      by_cases hu : u = prom
      · subst hu
        rw [PromiseTable.states_fulfil,Shared.value.injEq] at hvalue
        subst hvalue
        exact ⟨k,msg,rfl,type,data,find⟩
      · rw [PromiseTable.states_fulfil_of_ne _ value hu] at hvalue
        exact absurd hvalue hnot

end Entries

/-- In this run a response with id `n` and this body was dispatched while
promise `u` was found under `n`. -/
def Served (H : Bytes → ℕ) (o : ByteOrder) (s₀ : Process κ) (es : List (Event κ)) (n : UInt32)
    (u : ℕ) (body : Bytes) : Prop :=
  ∃ pre k msg post s₁, es = pre ++ .receive k msg :: post ∧ exec (step H o) s₀ pre = some s₁ ∧
    HasType msg .response ∧ msg.header.id = n ∧ msg.dataString = some body ∧
    s₁.channel.prommap.find n = some u

/-- The promise now found under `n` was found by an earlier response with that
id. -/
def Repeats (H : Bytes → ℕ) (o : ByteOrder) (s₀ : Process κ) (es : List (Event κ)) (s : Process κ)
    (n : UInt32) : Prop :=
  ∃ u body, s.channel.prommap.find n = some u ∧ Served H o s₀ es n u body

section History
variable {H : Bytes → ℕ} {o : ByteOrder} {conn : Option κ} {es : List (Event κ)} {s : Process κ}
  {u : ℕ} {n : UInt32} {body : Bytes}

theorem Owns.run {s₁ : Process κ} (h : Owns s₁ n u) (hrun : exec (step H o) s₁ es = some s) :
    Owns s n u :=
  exec_preserves (step H o) (P := fun s => Owns s n u) (fun _ _ _ hu hv => hu.step hv) h hrun

theorem served_of_value (hrun : exec (step H o) (init conn) es = some s)
    (hvalue : s.channel.prommap.states u = .value body) :
    ∃ n, Served H o (init conn) es n u body := by
  have hfresh : (init conn).channel.prommap.states u ≠ .value body := nofun
  obtain ⟨pre,e,post,s₁,s₂,rfl,hpre,hstep,_,hnot,hbecame⟩ :=
    exec_became (step H o) (P := fun s => s.channel.prommap.states u = .value body) hfresh
      hvalue hrun
  obtain ⟨k,msg,rfl,hm,hdata,hfind⟩ := value_step hstep hnot hbecame
  exact ⟨msg.header.id,pre,k,msg,post,s₁,rfl,hpre,hm,rfl,hdata,hfind⟩

/-- The promise keeps that value, and its call keeps the key. -/
theorem Served.settled (h : Served H o (init conn) es n u body)
    (hrun : exec (step H o) (init conn) es = some s) :
    s.channel.prommap.states u = .value body ∧ Owns s n u := by
  obtain ⟨pre,k,msg,post,s₁,rfl,hpre,hm,rfl,hdata,hfind⟩ := h
  obtain ⟨s₁',hpre',hrest⟩ := (exec_append_eq_some _).mp hrun
  obtain rfl := Option.some.inj (hpre.symm.trans hpre')
  obtain ⟨s₂,hstep,hpost⟩ := (exec_cons_eq_some _).mp hrest
  refine ⟨?_,Owns.run ((run_keyed hpre).entry _ _ hfind) hrest⟩
  apply exec_preserves (step H o) (P := fun s => s.channel.prommap.states u = .value body)
    ?_ ?_ hpost
  · intro v e w hv hw
    rw [settled_step (by rw [hv]; exact nofun) hw,hv]
  · obtain ⟨d,hd,rfl⟩ := step_receive.mp hstep
    rcases setResponse_cases (dispatch_response hm hd).1 with
      ⟨hnone,_⟩ | ⟨prom,value,hprom,hvalue,_,hch⟩
    · rw [hfind] at hnone
      cases hnone
    · obtain rfl := Option.some.inj (hfind.symm.trans hprom)
      obtain rfl := Option.some.inj (hdata.symm.trans hvalue)
      simp [Process.deliver,hch]

end History

/-- In every state of every run, `SetResponse` returns for a response exactly
if the promise it finds, if any, was not found by an earlier response with its
id. -/
theorem response_returns_iff (H : Bytes → ℕ) (o : ByteOrder) (conn : Option κ)
    (es : List (Event κ)) (s : Process κ) (k : κ) (msg : Message) (body : Bytes)
    (hrun : exec (step H o) (init conn) es = some s) (hm : HasType msg .response)
    (hbody : msg.dataString = some body) :
    (∃ s', step H o s (.receive k msg) = some s') ↔
      ¬ Repeats H o (init conn) es s msg.header.id := by
  constructor
  · intro hex hrep
    rcases hex with ⟨s',hs'⟩
    rcases hrep with ⟨u,b,hfind,hserved⟩
    have hvalue := (hserved.settled hrun).1
    obtain ⟨d,hd,_⟩ := step_receive.mp hs'
    rcases setResponse_cases (dispatch_response hm hd).1 with
      ⟨hnone,_⟩ | ⟨prom,_,hprom,_,hpending,_⟩
    · rw [hfind] at hnone
      cases hnone
    · obtain rfl := Option.some.inj (hfind.symm.trans hprom)
      rw [hvalue] at hpending
      cases hpending
  · intro hnot
    cases hfind : s.channel.prommap.find msg.header.id with
    | none => exact ⟨_,step_dropped hm hfind⟩
    | some u =>
        cases hst : s.channel.prommap.states u with
        | pending => exact ⟨_,step_found hm hfind hbody hst⟩
        | broken => exact absurd hst (run_unbroken hrun _ _ hfind)
        | value b =>
            exfalso
            apply hnot
            obtain ⟨n,hserved⟩ := served_of_value hrun hst
            obtain ⟨c,hc,_,hkey⟩ := (run_keyed hrun).entry _ _ hfind
            have hn := ((hserved.settled hrun).2.of_call hc).2
            rw [hkey] at hn
            exact ⟨u,b,hfind,hn ▸ hserved⟩

/-- A call whose promise has just been found by its response. -/
def answeredRun : List (Event ℕ) :=
  .call [1] [] [] :: statements 0 9 ++ [.receive 0 firstResponse]

theorem response_returns_iff_answered :
    ∃ s ∈ exec (step (fun _ => 0) .little) (init (some 0)) answeredRun,
      ((∃ s', step (fun _ => 0) .little s (.receive 0 firstResponse) = some s') ↔
        ¬ Repeats (fun _ => 0) .little (init (some 0)) answeredRun s firstResponse.header.id) := by
  have hrun : ∃ s, exec (step (fun _ => 0) .little) (init (some 0)) answeredRun = some s :=
    Option.isSome_iff_exists.mp (by decide)
  obtain ⟨s,hs⟩ := hrun
  exact ⟨s,hs,response_returns_iff _ _ _ _ s 0 firstResponse [9] hs (by decide) (by decide)⟩

/-- The same response again, before the call has woken up. -/
theorem second_response_throws :
    ¬ ∀ (es : List (Event ℕ)) (s : Process ℕ) (k : ℕ) (msg : Message) (body : Bytes),
      exec (step (fun _ => 0) .little) (init (some 0)) es = some s → HasType msg .response →
      msg.dataString = some body →
        ∃ s', step (fun _ => 0) .little s (.receive k msg) = some s' := by
  intro h
  have hrun : ∃ s ∈ exec (step (fun _ => 0) .little) (init (some 0)) answeredRun,
      (step (fun _ => 0) .little s (.receive 0 firstResponse)).isNone = true := by decide
  obtain ⟨s,hs,hnone⟩ := hrun
  obtain ⟨s',hs'⟩ := h answeredRun s 0 firstResponse [9] hs (by decide) (by decide)
  rw [hs'] at hnone
  cases hnone

/-! ### One caller -/

/-- The call has got the id of its request. -/
def Requested (c : Invocation) : Prop := c.pc.numbered = true ∨ c.pc.asked = true

/-- What call `t` has returned is the body of a response that was dispatched
after `t` had registered, with the id of its request and of no other. -/
def OwnAnswer (H : Bytes → ℕ) (o : ByteOrder) (s₀ : Process κ) (es : List (Event κ))
    (s : Process κ) (t : ℕ) (c : Invocation) : Prop :=
  ∃ pre k msg post s₁ c₁, es = pre ++ .receive k msg :: post ∧ exec (step H o) s₀ pre = some s₁ ∧
    s₁.calls[t]? = some c₁ ∧ c₁.pc.registered = true ∧ HasType msg .response ∧
    msg.dataString = some c.res ∧ msg.header.id = c.msg.header.id ∧
    ∀ u d, u ≠ t → s.calls[u]? = some d → Requested d → d.msg.header.id ≠ msg.header.id

theorem ticket_of_requested {c : Invocation} (h : Requested c) :
    ticket c = some c.msg.header.id.toNat := by
  rcases h with hpc | hpc
  · exact ticket_of_numbered hpc
  · exact ticket_of_asked hpc

/-- With one call at a time, whatever responses come and whenever they do, a
call returns `RPCOK` with its own answer only. -/
theorem returns_own_answer (H : Bytes → ℕ) (o : ByteOrder) (conn : Option κ)
    (es : List (Event κ)) (s : Process κ) (t : ℕ) (c : Invocation)
    (hsolo : AllSteps (step H o) Solo (init conn) es)
    (hrun : exec (step H o) (init conn) es = some s) (hlen : s.calls.length < 2 ^ 32)
    (hc : s.calls[t]? = some c) (hpc : c.pc = .returned .rpcOk) :
    OwnAnswer H o (init conn) es s t c := by
  have hcor := run_solo hsolo hrun hlen
  have hasked : c.pc.asked = true := by rw [hpc]; rfl
  have hvalue := (ConnectionIsolation.run_sourced hrun).result t c hc (Or.inr hpc)
  obtain ⟨n,hserved⟩ := served_of_value hrun hvalue
  have hkey := ((hserved.settled hrun).2.of_call hc).2
  have hid := hcor.own c (List.mem_of_getElem? hc) hasked
  obtain ⟨pre,k,msg,post,s₁,hes,hpre,hm,hmsg,hdata,hfind⟩ := hserved
  obtain ⟨c₁,hc₁,hreg,_⟩ := (run_keyed hpre).entry _ _ hfind
  have hown : msg.header.id = c.msg.header.id := hmsg.trans (hkey.symm.trans hid)
  refine ⟨pre,k,msg,post,s₁,c₁,hes,hpre,hc₁,hreg,hm,hdata,hown,?_⟩
  intro u d hu hd hreq hsame
  apply hu
  exact same_ticket hcor.numbered hd hc (ticket_of_requested hreq) (ticket_of_asked hasked)
    (hsame.trans hown)

/-- The response to the second call. -/
def secondResponse : Message := (Message.build .little [8] 2 2 0 0).getD .empty

/-- A call times out, the next one gets its own answer after the late one. -/
def lateRun : List (Event ℕ) :=
  .call [1] [] [] :: statements 0 9 ++ [.expire 0,.call [1] [] []] ++ statements 1 9 ++
    [.receive 0 firstResponse,.receive 0 secondResponse] ++ statements 1 3

theorem returns_own_answer_late :
    ∃ s ∈ exec (step (fun _ => 0) .little) (init (some 0)) lateRun, ∃ c ∈ s.calls[1]?,
      c.res = [8] ∧ OwnAnswer (fun _ => 0) .little (init (some 0)) lateRun s 1 c := by
  have hrun : ∃ s ∈ exec (step (fun _ => 0) .little) (init (some 0)) lateRun,
      s.calls.length < 2 ^ 32 ∧ ∃ c ∈ s.calls[1]?, c.pc = .returned .rpcOk ∧ c.res = [8] := by
    decide
  obtain ⟨s,hs,hlen,c,hc,hpc,hres⟩ := hrun
  exact ⟨s,hs,c,hc,hres,returns_own_answer _ _ _ _ s 1 c (by decide) hs hlen hc hpc⟩

end SindiaRpc.ResponseHistory
