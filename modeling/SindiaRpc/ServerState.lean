import SindiaRpc.ConnectionState
import Mathlib.Data.List.AList

/-!
# The server and its connection table (`server/tcpserver.cpp`)

`Accept` starts one `async_accept`; its handler enters the new connection into
`m_connmap`, starts it and calls `Accept` again. The close callback of a
connection removes its entry, and `Stop` closes what the entries still refer
to. Member functions and handlers are atomic, and a completion is queued before
its handler runs, so that a peer may be gone by then.

Connections are named by the order in which they were accepted. The table holds
weak references: a connection lives while the handler of one of its reads holds
it, and only then takes steps. No handler runs after `Stop`, nor after one that
threw, which ends the process.
-/
namespace SindiaRpc.ServerState
open MessageFrames ConnectionState

abbrev Connmap := AList fun _ : String => ℕ

structure Server where
  started : Bool := false
  stopped : Bool := false
  /-- An exception has left a handler. -/
  failed : Bool := false
  /-- The `async_accept` operations; the result is set once the completion is
  queued. -/
  accepts : List (Option ErrorCode) := []
  conns : List Connection := []
  connmap : Connmap := ∅

namespace Server

def accept (s : Server) : Server := {s with accepts := s.accepts ++ [none]}

def start (s : Server) : Server := accept {s with started := true}

/-- The handler of `async_accept`. The key is taken before `Start` stores the
peer's address; `ip` and `port` are what the two `remote_endpoint` calls in
`Start` return, `none` where the call throws. -/
def acceptHandler (error : ErrorCode) (ip : Option String) (port : Option ℕ) (s : Server) :
    Server :=
  if error = 0 then
    let conn : Connection := {isOpen := true, message := .empty, closecb := false}
    let s := {s with connmap := s.connmap.insert conn.peeraddr s.conns.length}
    let conn := {conn with closecb := true}
    match conn.start ip port with
    | none => {s with conns := s.conns ++ [conn], failed := true}
    | some conn => accept {s with conns := s.conns ++ [conn]}
  else s.accept

def closeConn (c : ℕ) (s : Server) : Server :=
  match s.conns[c]? with
  | none => s
  | some conn => {s with connmap := s.connmap.erase conn.peeraddr}

/-- A table entry that still refers to a connection. -/
def Held (s : Server) (c : ℕ) : Prop := ∃ conn ∈ s.conns[c]?, conn.reads ≠ []

instance (s : Server) (c : ℕ) : Decidable (s.Held c) := inferInstanceAs (Decidable (∃ _ ∈ _, _))

/-- `Close` on connection `c`, with its callback. -/
def closeConnection (c : ℕ) (s : Server) : Server :=
  match s.conns[c]? with
  | none => s
  | some conn =>
      let t := {s with conns := s.conns.set c conn.close}
      if conn.closecb then t.closeConn c else t

/-- The loop of `Stop` over the entries with these keys. An entry erased by an
earlier `Close` is not visited; erasing the current one leaves the loop without
a valid iterator. -/
def closeAll : List String → Server → Option Server
  | [], s => some s
  | key :: keys, s =>
      match s.connmap.lookup key with
      | none => closeAll keys s
      | some c =>
          if s.Held c then
            let t := s.closeConnection c
            if key ∈ t.connmap then closeAll keys t else none
          else closeAll keys s

/-- `m_acceptor.close()` aborts the accept outstanding. -/
def stop (s : Server) : Option Server :=
  closeAll s.connmap.keys
    {s with stopped := true, accepts := s.accepts.map fun r => r <|> some operationAborted}

/-- The thread that runs the handlers. -/
def Running (s : Server) : Prop := s.started = true ∧ s.stopped = false ∧ s.failed = false

instance (s : Server) : Decidable s.Running := inferInstanceAs (Decidable (_ ∧ _))

end Server

inductive Event where
  | start
  /-- The completion of accept `i` is queued. -/
  | acceptDone (i : ℕ) (error : ErrorCode)
  /-- The handler of accept `i` runs. -/
  | runAccept (i : ℕ) (ip : Option String) (port : Option ℕ)
  /-- Connection `c` takes a step. -/
  | connection (c : ℕ) (e : ConnectionState.Event)
  | stop
  deriving DecidableEq

def step (abi : Abi) (s : Server) : Event → Option Server
  | .start => if s.started then none else some s.start
  | .acceptDone i error => do
      let result ← s.accepts[i]?
      if s.Running ∧ result = none then some {s with accepts := s.accepts.set i (some error)}
      else none
  | .runAccept i ip port => do
      let result ← s.accepts[i]?
      let error ← result
      if s.Running then
        some (Server.acceptHandler error ip port {s with accepts := s.accepts.eraseIdx i})
      else none
  | .connection c e => do
      let conn ← s.conns[c]?
      if s.Running ∧ s.Held c then
        let conn' ← ConnectionState.step abi conn e
        let t := {s with conns := s.conns.set c conn'}
        some (if conn.closecbCalls < conn'.closecbCalls then t.closeConn c else t)
      else none
  | .stop => if s.Running then s.stop else none

section Inversion
variable {abi : Abi} {s t : Server} {i c : ℕ} {error : ErrorCode} {ip : Option String}
  {port : Option ℕ} {e : ConnectionState.Event}

theorem step_start : step abi s .start = some t ↔ s.started = false ∧ t = s.start := by
  simp only [step,Option.ite_none_left_eq_some,Bool.not_eq_true,Option.some.injEq,eq_comm (b := t)]

theorem step_acceptDone : step abi s (.acceptDone i error) = some t ↔
    s.accepts[i]? = some none ∧ s.Running ∧
      t = {s with accepts := s.accepts.set i (some error)} := by
  simp only [step,Option.bind_eq_bind,Option.bind_eq_some_iff,Option.ite_none_right_eq_some,
    Option.some.injEq,eq_comm (b := t)]
  constructor
  · intro hex
    obtain ⟨result,hr,⟨hrun,rfl⟩,ht⟩ := hex
    exact ⟨hr,hrun,ht⟩
  · intro h
    exact ⟨none,h.1,⟨h.2.1,rfl⟩,h.2.2⟩

theorem step_runAccept : step abi s (.runAccept i ip port) = some t ↔
    ∃ error, s.accepts[i]? = some (some error) ∧ s.Running ∧
      t = Server.acceptHandler error ip port {s with accepts := s.accepts.eraseIdx i} := by
  simp only [step,Option.bind_eq_bind,Option.bind_eq_some_iff,Option.ite_none_right_eq_some,
    Option.some.injEq,eq_comm (b := t)]
  constructor
  · intro hex
    obtain ⟨result,hr,error,rfl,hrun,ht⟩ := hex
    exact ⟨error,hr,hrun,ht⟩
  · intro hex
    obtain ⟨error,hr,hrun,ht⟩ := hex
    exact ⟨some error,hr,error,rfl,hrun,ht⟩

theorem step_connection : step abi s (.connection c e) = some t ↔
    ∃ conn conn', s.conns[c]? = some conn ∧ s.Running ∧ s.Held c ∧
      ConnectionState.step abi conn e = some conn' ∧
      t = if conn.closecbCalls < conn'.closecbCalls then
          Server.closeConn c {s with conns := s.conns.set c conn'}
        else {s with conns := s.conns.set c conn'} := by
  simp only [step,Option.bind_eq_bind,Option.bind_eq_some_iff,Option.ite_none_right_eq_some,
    Option.some.injEq,exists_and_left,and_assoc,eq_comm (b := t)]

theorem step_stop : step abi s .stop = some t ↔ s.Running ∧ s.stop = some t := by
  simp only [step,Option.ite_none_right_eq_some]

/-- The handler of a successful accept ends in `Accept` again, or throws. -/
theorem acceptHandler_cases (ip : Option String) (port : Option ℕ) (s : Server) :
    (∃ a n, ip = some a ∧ port = some n ∧ Server.acceptHandler 0 ip port s = Server.accept
        {s with
          conns := s.conns ++ [started .empty true (a ++ ":" ++ toString n)]
          connmap := s.connmap.insert "" s.conns.length}) ∨
      ((ip = none ∨ port = none) ∧ Server.acceptHandler 0 ip port s =
        {s with
          conns := s.conns ++ [connected .empty true]
          connmap := s.connmap.insert "" s.conns.length
          failed := true}) := by
  cases ip with
  | none => exact Or.inr ⟨Or.inl rfl,rfl⟩
  | some a =>
      cases port with
      | none => exact Or.inr ⟨Or.inr rfl,rfl⟩
      | some n => exact Or.inl ⟨a,n,rfl,rfl,rfl⟩

end Inversion
end SindiaRpc.ServerState
