import SindiaRpc.DispatcherTable
import SindiaRpc.PromiseTables

/-!
# Calls and the table of their promises (`common/rpcchannel.cpp`)

A thread in `Rpcchannel::Call` is an invocation: its arguments, its local
message and the statement it executes next. Statements are atomic, and those
of different threads interleave freely. `m_callid` is incremented for the
request and read once more for `GetResponse`; the promise is stored after the
request has been written. The promise that invocation `t` creates has token `t`.
`wait_for` with a pending promise blocks until a timeout is taken instead.
-/
namespace SindiaRpc.RpcChannel
open MessageFrames DispatcherTable PromiseTables

/-- `RPC_RET`. -/
inductive RpcRet where
  | rpcOk | rpcFail | rpcNoConn | rpcTimeout
  deriving DecidableEq, Repr

/-- `Rpcchannel`, for connections named by `κ`. -/
structure Rpcchannel (κ : Type*) where
  callid : UInt32 := 0
  prommap : PromiseTable UInt32 Bytes := {}
  conn : Option κ

/-- The statement of `Call` that comes next; from `register` on, of the
`GetResponse` it calls. -/
inductive Pc where
  | entry | construct | setType | setId | setHash | setErrcode | write | loadId
  | register | wait | get | erase
  | returned (rc : RpcRet)
  /-- `get` has thrown `broken_promise`. -/
  | threw
  deriving DecidableEq, Repr

structure Invocation where
  pc : Pc := .entry
  name : Bytes
  req : Bytes
  res : Bytes
  msg : Message := .empty
  /-- The parameter of `GetResponse`. -/
  callid : UInt32 := 0
  deriving DecidableEq

structure Effect (κ : Type*) where
  channel : Rpcchannel κ
  call : Invocation
  writes : List (κ × Message) := []

namespace Rpcchannel
variable {κ : Type*}

/-- A statement of `GetResponse`. A call that is blocked or over stays as it
is. -/
def getResponse (t : ℕ) (ch : Rpcchannel κ) (c : Invocation) : Effect κ :=
  match c.pc with
  | .register => ⟨{ch with prommap := ch.prommap.assign c.callid t},{c with pc := .wait},[]⟩
  | .wait => if ch.prommap.states t = .pending then ⟨ch,c,[]⟩ else ⟨ch,{c with pc := .get},[]⟩
  | .get =>
      match ch.prommap.states t with
      | .value value => ⟨ch,{c with pc := .erase, res := value},[]⟩
      | _ => ⟨ch,{c with pc := .threw},[]⟩
  | .erase =>
      ⟨{ch with prommap := ch.prommap.erase c.callid},{c with pc := .returned .rpcOk},[]⟩
  | _ => ⟨ch,c,[]⟩

/-- A statement of `Call`. -/
def call (H : Bytes → ℕ) (o : ByteOrder) (t : ℕ) (ch : Rpcchannel κ) (c : Invocation) :
    Except Fault (Effect κ) :=
  match c.pc with
  | .entry =>
      match ch.conn with
      | none => .ok ⟨ch,{c with pc := .returned .rpcNoConn},[]⟩
      | some _ => .ok ⟨ch,{c with pc := .construct},[]⟩
  | .construct =>
      match Message.ofData o c.req with
      | none => .error .outOfBounds
      | some msg => .ok ⟨ch,{c with pc := .setType, msg := msg},[]⟩
  | .setType => .ok ⟨ch,{c with pc := .setId, msg := c.msg.setType o MsgType.request.code},[]⟩
  | .setId =>
      let callid := ch.callid + 1
      .ok ⟨{ch with callid := callid},{c with pc := .setHash, msg := c.msg.setId o callid},[]⟩
  | .setHash =>
      .ok ⟨ch,{c with pc := .setErrcode, msg := c.msg.setHash o (UInt32.ofNat (H c.name))},[]⟩
  | .setErrcode => .ok ⟨ch,{c with pc := .write, msg := c.msg.setErrcode o 0},[]⟩
  | .write =>
      match ch.conn with
      | none => .error .nullConnection
      | some k => .ok ⟨ch,{c with pc := .loadId},[(k,c.msg)]⟩
  -- the counter as it is now, not the id this call was given
  | .loadId => .ok ⟨ch,{c with pc := .register, callid := ch.callid},[]⟩
  | .register | .wait | .get | .erase | .returned _ | .threw => .ok (ch.getResponse t c)

/-- The end of `wait_for`, which reports a timeout only where the promise is
still pending. -/
def expire (t : ℕ) (ch : Rpcchannel κ) (c : Invocation) : Effect κ :=
  if ch.prommap.states t = .pending then ⟨ch,{c with pc := .returned .rpcTimeout},[]⟩
  else ch.getResponse t c

/-- `SetResponse`. The key is the `size_t` id, narrowed again. -/
def setResponse (msg : Message) (ch : Rpcchannel κ) : Except Fault (Rpcchannel κ) :=
  match ch.prommap.find (UInt32.ofNat msg.getId) with
  | none => .ok ch
  | some prom =>
      match msg.dataString with
      | none => .error .outOfBounds
      | some value =>
          match ch.prommap.setValue prom value with
          | none => .error .futureError
          | some prommap => .ok {ch with prommap := prommap}

end Rpcchannel

/-! ### What one statement does -/

namespace Pc

/-- Before the call has an id. -/
def unnumbered : Pc → Bool
  | entry | construct | setType | setId => true
  | _ => false

/-- Between `++m_callid` and the next evaluation of `m_callid`. -/
def numbered : Pc → Bool
  | setHash | setErrcode | write | loadId => true
  | _ => false

/-- `GetResponse` has been called. -/
def asked : Pc → Bool
  | register | wait | get | erase | threw => true
  | returned .rpcNoConn => false
  | returned _ => true
  | _ => false

/-- `GetResponse` has been called and has not returned. -/
def waiting : Pc → Bool
  | register | wait | get | erase => true
  | _ => false

/-- The promise is in the table, unless another call has replaced it. -/
def registered : Pc → Bool
  | register => false
  | pc => pc.asked

/-- `Call` has returned or thrown. -/
def ended : Pc → Bool
  | returned _ | threw => true
  | _ => false

end Pc

section Statements
variable {κ : Type*} {t : ℕ} {ch : Rpcchannel κ} {c : Invocation}

/-- The transitions of one call together with the channel. -/
inductive Statement (t : ℕ) (ch : Rpcchannel κ) (c : Invocation) :
    Rpcchannel κ → Invocation → Prop
  | stay : Statement t ch c ch c
  | refuse (pc : c.pc = .entry) : Statement t ch c ch {c with pc := .returned .rpcNoConn}
  | prepare (pc : c.pc.unnumbered = true) (pc' : Pc) (msg : Message)
      (after : pc'.unnumbered = true) : Statement t ch c ch {c with pc := pc', msg := msg}
  | number (pc : c.pc = .setId) (msg : Message) (id : msg.header.id = ch.callid + 1) :
      Statement t ch c {ch with callid := ch.callid + 1} {c with pc := .setHash, msg := msg}
  | finish (pc : c.pc.numbered = true) (pc' : Pc) (msg : Message) (after : pc'.numbered = true)
      (id : msg.header.id = c.msg.header.id) : Statement t ch c ch {c with pc := pc', msg := msg}
  | ask (pc : c.pc = .loadId) :
      Statement t ch c ch {c with pc := .register, callid := ch.callid}
  | register (pc : c.pc = .register) :
      Statement t ch c {ch with prommap := ch.prommap.assign c.callid t} {c with pc := .wait}
  | timeout (pc : c.pc = .wait) (pending : ch.prommap.states t = .pending) :
      Statement t ch c ch {c with pc := .returned .rpcTimeout}
  | ready (pc : c.pc = .wait) (done : ch.prommap.states t ≠ .pending) :
      Statement t ch c ch {c with pc := .get}
  | get (pc : c.pc = .get) (value : Bytes) (done : ch.prommap.states t = .value value) :
      Statement t ch c ch {c with pc := .erase, res := value}
  | throw (pc : c.pc = .get) (empty : ∀ value, ch.prommap.states t ≠ .value value) :
      Statement t ch c ch {c with pc := .threw}
  | erase (pc : c.pc = .erase) :
      Statement t ch c {ch with prommap := ch.prommap.erase c.callid}
        {c with pc := .returned .rpcOk}

theorem getResponse_statement (t : ℕ) (ch : Rpcchannel κ) (c : Invocation) :
    Statement t ch c (ch.getResponse t c).channel (ch.getResponse t c).call := by
  unfold Rpcchannel.getResponse
  split
  · exact .register ‹_›
  · split_ifs with hp
    · exact .stay
    · exact .ready ‹_› hp
  · split
    · exact .get ‹_› _ ‹_›
    · rename_i hv
      exact .throw ‹_› fun value h => hv value h
  · exact .erase ‹_›
  · exact .stay

theorem call_statement {H : Bytes → ℕ} {o : ByteOrder} {e : Effect κ}
    (h : ch.call H o t c = .ok e) : Statement t ch c e.channel e.call := by
  cases hpc : c.pc with
  | entry =>
      simp only [Rpcchannel.call,hpc] at h
      cases hconn : ch.conn with
      | none =>
          rw [hconn] at h
          cases h
          exact .refuse hpc
      | some k =>
          rw [hconn] at h
          cases h
          exact .prepare (by simp [hpc,Pc.unnumbered]) .construct c.msg rfl
  | construct =>
      simp only [Rpcchannel.call,hpc] at h
      cases hmsg : Message.ofData o c.req with
      | none => simp [hmsg] at h
      | some msg =>
          rw [hmsg] at h
          cases h
          exact .prepare (by simp [hpc,Pc.unnumbered]) .setType msg rfl
  | setType =>
      simp only [Rpcchannel.call,hpc] at h
      cases h
      exact .prepare (by simp [hpc,Pc.unnumbered]) .setId _ rfl
  | setId =>
      simp only [Rpcchannel.call,hpc] at h
      cases h
      exact .number hpc _ rfl
  | setHash =>
      simp only [Rpcchannel.call,hpc] at h
      cases h
      exact .finish (by simp [hpc,Pc.numbered]) .setErrcode _ rfl rfl
  | setErrcode =>
      simp only [Rpcchannel.call,hpc] at h
      cases h
      exact .finish (by simp [hpc,Pc.numbered]) .write _ rfl rfl
  | write =>
      simp only [Rpcchannel.call,hpc] at h
      cases hconn : ch.conn with
      | none => simp [hconn] at h
      | some k =>
          rw [hconn] at h
          cases h
          exact .finish (by simp [hpc,Pc.numbered]) .loadId c.msg rfl rfl
  | loadId =>
      simp only [Rpcchannel.call,hpc] at h
      cases h
      exact .ask hpc
  | register | wait | get | erase | returned _ | threw =>
      simp only [Rpcchannel.call,hpc] at h
      cases h
      exact getResponse_statement t ch c

theorem expire_statement (hc : c.pc = .wait) :
    Statement t ch c (ch.expire t c).channel (ch.expire t c).call := by
  unfold Rpcchannel.expire
  split_ifs with h
  · exact .timeout hc h
  · exact getResponse_statement t ch c

namespace Statement
variable {ch' : Rpcchannel κ} {c' : Invocation}

/-- Once in `GetResponse` a call keeps its request and its key. -/
theorem asked (h : Statement t ch c ch' c') (hc : c.pc.asked = true) :
    c'.pc.asked = true ∧ c'.callid = c.callid ∧ c'.msg = c.msg := by
  cases h with
  | stay => exact ⟨hc,rfl,rfl⟩
  | refuse pc => simp [pc,Pc.asked] at hc
  | prepare pc pc' msg after | finish pc pc' msg after id =>
      cases hp : c.pc <;> simp_all [Pc.asked,Pc.unnumbered,Pc.numbered]
  | number pc msg id | ask pc => simp [pc,Pc.asked] at hc
  | register pc | timeout pc pending | ready pc done | get pc value done | throw pc empty
  | erase pc => exact ⟨rfl,rfl,rfl⟩

theorem registered (h : Statement t ch c ch' c') (hc : c.pc.registered = true) :
    c'.pc.registered = true := by
  cases h with
  | stay => exact hc
  | refuse pc => simp [pc,Pc.registered,Pc.asked] at hc
  | prepare pc pc' msg after | finish pc pc' msg after id =>
      cases hp : c.pc <;> simp_all [Pc.registered,Pc.asked,Pc.unnumbered,Pc.numbered]
  | number pc msg id | ask pc => simp [pc,Pc.registered,Pc.asked] at hc
  | register pc | timeout pc pending | ready pc done | get pc value done | throw pc empty
  | erase pc => rfl

/-- No statement changes a settled promise. -/
theorem settled (h : Statement t ch c ch' c') {u : ℕ} (hu : ch.prommap.states u ≠ .pending) :
    ch'.prommap.states u = ch.prommap.states u := by
  cases h with
  | register pc => exact PromiseTable.states_discard_of_settled hu
  | erase pc => exact PromiseTable.states_discard_of_settled hu
  | stay | refuse _ | prepare _ _ _ _ | number _ _ _ | finish _ _ _ _ _ | ask _ | timeout _ _
  | ready _ _ | get _ _ _ | throw _ _ => rfl

end Statement

/-- `SetResponse` does nothing, or gives the promise under the id its value. -/
theorem setResponse_cases {msg : Message} {ch' : Rpcchannel κ}
    (h : ch.setResponse msg = .ok ch') :
    (ch.prommap.find msg.header.id = none ∧ ch' = ch) ∨
      ∃ prom value, ch.prommap.find msg.header.id = some prom ∧ msg.dataString = some value ∧
        ch.prommap.states prom = .pending ∧
        ch' = {ch with prommap := ch.prommap.fulfil prom value} := by
  simp only [Rpcchannel.setResponse,Message.getId,UInt32.ofNat_toNat] at h
  cases hfind : ch.prommap.find msg.header.id with
  | none =>
      simp only [hfind,Except.ok.injEq] at h
      exact Or.inl ⟨rfl,h.symm⟩
  | some prom =>
      right
      cases hdata : msg.dataString with
      | none => simp [hfind,hdata] at h
      | some value =>
          cases hset : ch.prommap.setValue prom value with
          | none => simp [hfind,hdata,hset] at h
          | some prommap =>
              simp only [hfind,hdata,hset,Except.ok.injEq] at h
              obtain ⟨hpending,rfl⟩ := ch.prommap.setValue_eq_some.mp hset
              exact ⟨prom,value,rfl,rfl,hpending,h.symm⟩

end Statements
end SindiaRpc.RpcChannel
