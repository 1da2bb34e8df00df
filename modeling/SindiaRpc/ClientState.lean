import SindiaRpc.ReadGuards

/-!
# The client and its connection objects (`client/tcpclient.cpp`)

`StartConnect` puts a new connection object into `m_connection` and starts an
`async_connect` on its socket; the completion runs `HandleConnection`, which is
bound to the client and not to that object. The check thread tests
`m_isconnected` and starts another connect, and the close callback of any of
the objects empties `m_connection`. The member functions are atomic here; the
check thread's test and its `StartConnect` are two steps.

Connection objects are named by the order of their creation. An object lives
while `m_connection` or the handler of one of its reads holds it, and only then
takes steps. `m_onconnect` and `m_onerror` are set nowhere. Dereferencing a null
`m_connection`, and a `Start` that throws, have no successor state.
-/
namespace SindiaRpc.ClientState
open MessageFrames ConnectionState

/-- An `async_connect`, until its `HandleConnection` runs; `result` is set once
its completion is queued. -/
structure Attempt where
  conn : ℕ
  result : Option ErrorCode := none
  deriving DecidableEq, Repr

/-- Where a check thread is: before its test of `m_isconnected`, or before the
`StartConnect` that follows. -/
inductive Check where
  | testing | retrying
  deriving DecidableEq, Repr

structure Client where
  isconnected : Bool := false
  connection : Option ℕ := none
  /-- Whether `m_chkthread` is set. -/
  chkthread : Bool := false
  checks : List Check := []
  conns : List Connection := []
  attempts : List Attempt := []
  /-- Objects whose connect has succeeded. -/
  established : List ℕ := []
  /-- Objects that `HandleConnection` called `Start` and `Write` on. -/
  greeted : List ℕ := []

/-- The test message `"hello server"`, with its terminating zero. -/
def greeting : Bytes := [104,101,108,108,111,32,115,101,114,118,101,114,0]

/-- The name `"hello"`. -/
def helloName : Bytes := [104,101,108,108,111]

def hello (H : Bytes → ℕ) (o : ByteOrder) : Option Message :=
  Message.build o greeting MsgType.notify.code 0 (UInt32.ofNat (H helloName)) 0

namespace Client

/-- `opened` is whether `async_connect` can open the socket. -/
def startConnect (opened : Bool) (s : Client) : Client :=
  {s with
    connection := some s.conns.length
    conns := s.conns ++ [{isOpen := opened, message := .empty, closecb := true}]
    attempts := s.attempts ++ [⟨s.conns.length,none⟩]}

def checkConnect (s : Client) : Client :=
  if s.chkthread then s else {s with chkthread := true, checks := s.checks ++ [.testing]}

/-- `HandleConnection` looks at whatever `m_connection` holds by now. `ip` and
`port` are what the two `remote_endpoint` calls in `Start` return. -/
def handleConnection (abi : Abi) (H : Bytes → ℕ) (error : ErrorCode) (ip : Option String)
    (port : Option ℕ) (s : Client) : Option Client := do
  let k ← s.connection
  let c ← s.conns[k]?
  if !c.isOpen then some s
  else if error = 0 then
    let c ← c.start ip port
    let msg ← hello H abi.order
    let c ← c.write abi msg
    some {s with isconnected := true, conns := s.conns.set k c, greeted := s.greeted ++ [k]}
  else some s.checkConnect

/-- `CloseConn` looks at its argument for null only. -/
def closeConn (conn : Option ℕ) (s : Client) : Client :=
  match conn with
  | none => s
  | some _ => checkConnect {s with isconnected := false, connection := none}

/-- Something still refers to object `c`. -/
def Held (s : Client) (c : ℕ) : Prop :=
  s.connection = some c ∨ ∃ k ∈ s.conns[c]?, k.reads ≠ []

instance (s : Client) (c : ℕ) : Decidable (s.Held c) := inferInstanceAs (Decidable (_ ∨ _))

/-- The connect on `c` can still succeed. -/
def CanConnect (s : Client) (c : ℕ) : Prop := s.Held c ∧ ∃ k ∈ s.conns[c]?, k.isOpen = true

instance (s : Client) (c : ℕ) : Decidable (s.CanConnect c) := inferInstanceAs (Decidable (_ ∧ _))

end Client

inductive Event where
  /-- The main thread calls `Start`. -/
  | start (opened : Bool)
  /-- Check thread `n` tests `m_isconnected`. -/
  | test (n : ℕ)
  /-- Check thread `n` calls `StartConnect`. -/
  | retry (n : ℕ) (opened : Bool)
  /-- The completion of attempt `i` is queued. -/
  | connectDone (i : ℕ) (error : ErrorCode)
  /-- `HandleConnection` runs for attempt `i`. -/
  | handle (i : ℕ) (ip : Option String) (port : Option ℕ)
  /-- Connection object `c` takes a step. -/
  | connection (c : ℕ) (e : ConnectionState.Event)
  deriving DecidableEq

def step (abi : Abi) (H : Bytes → ℕ) (s : Client) : Event → Option Client
  | .start opened => if s.conns.isEmpty then some (s.startConnect opened) else none
  | .test n => do
      let check ← s.checks[n]?
      if check = .testing then
        some {s with checks := s.checks.set n (if s.isconnected then .testing else .retrying)}
      else none
  | .retry n opened => do
      let check ← s.checks[n]?
      if check = .retrying then
        some {s.startConnect opened with checks := s.checks.set n .testing}
      else none
  | .connectDone i error => do
      let a ← s.attempts[i]?
      if a.result = none ∧ (error = 0 → s.CanConnect a.conn) then
        some {s with
          attempts := s.attempts.set i {a with result := some error}
          established := s.established ++ if error = 0 then [a.conn] else []}
      else none
  | .handle i ip port => do
      let a ← s.attempts[i]?
      let error ← a.result
      Client.handleConnection abi H error ip port {s with attempts := s.attempts.eraseIdx i}
  | .connection c e => do
      let k ← s.conns[c]?
      if s.Held c then
        let k' ← ConnectionState.step abi k e
        let t := {s with conns := s.conns.set c k'}
        some (if k.closecbCalls < k'.closecbCalls then t.closeConn (some c) else t)
      else none

section Inversion
variable {abi : Abi} {H : Bytes → ℕ} {s t : Client} {n i c : ℕ} {opened : Bool}
  {error : ErrorCode} {ip : Option String} {port : Option ℕ} {e : ConnectionState.Event}

theorem step_start : step abi H s (.start opened) = some t ↔
    s.conns = [] ∧ t = s.startConnect opened := by
  simp only [step,Option.ite_none_right_eq_some,List.isEmpty_iff,Option.some.injEq,eq_comm (b := t)]

theorem step_test : step abi H s (.test n) = some t ↔ s.checks[n]? = some .testing ∧
    t = {s with checks := s.checks.set n (if s.isconnected then .testing else .retrying)} := by
  simp only [step,Option.bind_eq_bind,Option.bind_eq_some_iff,Option.ite_none_right_eq_some,
    Option.some.injEq,eq_comm (b := t)]
  constructor
  · intro hex
    rcases hex with ⟨check,hcheck,rfl,ht⟩
    exact ⟨hcheck,ht⟩
  · intro h
    exact ⟨.testing,h.1,rfl,h.2⟩

theorem step_retry : step abi H s (.retry n opened) = some t ↔ s.checks[n]? = some .retrying ∧
    t = {s.startConnect opened with checks := s.checks.set n .testing} := by
  simp only [step,Option.bind_eq_bind,Option.bind_eq_some_iff,Option.ite_none_right_eq_some,
    Option.some.injEq,eq_comm (b := t)]
  constructor
  · intro hex
    rcases hex with ⟨check,hcheck,rfl,ht⟩
    exact ⟨hcheck,ht⟩
  · intro h
    exact ⟨.retrying,h.1,rfl,h.2⟩

theorem step_connectDone : step abi H s (.connectDone i error) = some t ↔
    ∃ a, s.attempts[i]? = some a ∧ a.result = none ∧ (error = 0 → s.CanConnect a.conn) ∧
      t = {s with
        attempts := s.attempts.set i {a with result := some error}
        established := s.established ++ if error = 0 then [a.conn] else []} := by
  simp only [step,Option.bind_eq_bind,Option.bind_eq_some_iff,Option.ite_none_right_eq_some,
    Option.some.injEq,and_assoc,eq_comm (b := t)]

theorem step_handle : step abi H s (.handle i ip port) = some t ↔
    ∃ a error, s.attempts[i]? = some a ∧ a.result = some error ∧
      Client.handleConnection abi H error ip port {s with attempts := s.attempts.eraseIdx i} =
        some t := by
  simp only [step,Option.bind_eq_bind,Option.bind_eq_some_iff,exists_and_left]

theorem step_connection : step abi H s (.connection c e) = some t ↔
    ∃ k k', s.conns[c]? = some k ∧ s.Held c ∧ ConnectionState.step abi k e = some k' ∧
      t = if k.closecbCalls < k'.closecbCalls then
          Client.closeConn (some c) {s with conns := s.conns.set c k'}
        else {s with conns := s.conns.set c k'} := by
  simp only [step,Option.bind_eq_bind,Option.bind_eq_some_iff,Option.ite_none_right_eq_some,
    Option.some.injEq,exists_and_left,eq_comm (b := t)]

/-- `HandleConnection` does nothing, starts the check thread, or starts the
object it finds. -/
theorem handleConnection_cases
    (h : Client.handleConnection abi H error ip port s = some t) :
    ∃ k c, s.connection = some k ∧ s.conns[k]? = some c ∧
      (c.isOpen = false ∧ t = s ∨
        c.isOpen = true ∧ error ≠ 0 ∧ t = s.checkConnect ∨
        c.isOpen = true ∧ error = 0 ∧ ∃ c', t = {s with
          isconnected := true
          conns := s.conns.set k c'
          greeted := s.greeted ++ [k]}) := by
  simp only [Client.handleConnection,Option.bind_eq_bind,Option.bind_eq_some_iff] at h
  obtain ⟨k,hk,c,hc,h⟩ := h
  refine ⟨k,c,hk,hc,?_⟩
  cases ho : c.isOpen with
  | false =>
      simp only [ho,Bool.not_false,if_true,Option.some.injEq] at h
      exact Or.inl ⟨rfl,h.symm⟩
  | true =>
      simp only [ho,Bool.not_true,Bool.false_eq_true,if_false] at h
      split_ifs at h with he
      · simp only [Option.bind_eq_some_iff] at h
        obtain ⟨_,_,msg,_,c',_,h⟩ := h
        exact Or.inr (Or.inr ⟨rfl,he,c',(Option.some.inj h).symm⟩)
      · exact Or.inr (Or.inl ⟨rfl,he,(Option.some.inj h).symm⟩)

end Inversion
end SindiaRpc.ClientState
