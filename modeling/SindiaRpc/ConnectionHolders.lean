import SindiaRpc.ConnectionState

/-!
# Who holds a connection, and whose messages it sends

Read handlers are bound to `self` and keep their connection alive. Write
handlers are bound to the bare `this`, and `async_write` reads from the message
that the caller of `Write` passed by reference. Beside the connection there are
here its holders, and for each write outstanding the function that its message
is a local variable of. A run of `OnReadBody` is two steps, since writes make
progress while it is in `dispatch`; the handlers of one connection do not
overlap.

The connection of a client is held by `TcpClient::m_connection` from the start,
that of a server is not. A step of the connection needs a holder.
-/
namespace SindiaRpc.ConnectionHolders
open MessageFrames ConnectionState

/-- The function that built a message. -/
inductive Builder where
  /-- The `dispatch` that `OnReadBody` has called. -/
  | dispatch
  /-- A run of `Call` or of `HandleConnection`. -/
  | caller (f : ℕ)
  | returned
  deriving DecidableEq, Repr

structure Holders where
  conn : Connection
  /-- `TcpClient::m_connection` refers to the connection. -/
  connection : Bool
  /-- `Rpcchannel::m_conn` refers to it. -/
  channel : Bool := false
  /-- `OnReadBody` is running and holds `self`. -/
  callback : Bool := false
  /-- Who built the messages of `conn.writes`. -/
  builders : List Builder := []

/-- `OnReadBody` up to the return of `dispatch`. -/
def dispatchBody (abi : Abi) (reply : Option Message) (s : Connection) : Option Connection :=
  let s := {s with dispatched := s.dispatched ++ [s.message]}
  match reply with
  | none => some s
  | some msg => s.write abi msg

theorem onReadBody_eq (abi : Abi) (reply : Option Message) (s : Connection) :
    s.onReadBody abi 0 reply = (dispatchBody abi reply s).map Connection.readHead := by
  cases reply <;> rfl

/-- The writes that were started last belong to `b`. -/
def enter (b : Builder) (n : ℕ) (bs : List Builder) : List Builder :=
  bs ++ List.replicate (n - bs.length) b

/-- The functions `b` return. -/
def leave (b : Builder) (bs : List Builder) : List Builder :=
  bs.map fun x => if x = b then .returned else x

namespace Holders

def Held (s : Holders) : Prop :=
  s.conn.reads ≠ [] ∨ s.connection = true ∨ s.channel = true ∨ s.callback = true

instance (s : Holders) : Decidable s.Held := inferInstanceAs (Decidable (_ ∨ _))

/-- The step starts no `Write` and does not dispatch. -/
def Plain (s : Holders) : ConnectionState.Event → Prop
  | .callWrite _ => False
  | .runRead i _ => s.callback = false ∧
      ∀ op ∈ s.conn.reads[i]?, op.handler = .onReadBody → op.result ≠ some 0
  | .runWrite _ => s.callback = false
  | _ => True

instance (s : Holders) : ∀ e, Decidable (s.Plain e)
  | .callWrite _ => .isFalse id
  | .runRead _ _ => inferInstanceAs (Decidable (_ ∧ ∀ op ∈ _, _))
  | .runWrite _ => inferInstanceAs (Decidable (_ = _))
  | .receive _ | .readReady _ | .readFail _ _ | .sendChunk _ _ | .writeReady _ | .writeFail _ _
  | .callStop => .isTrue trivial

/-- The builders of the writes that are left when the handler of one runs. -/
def remaining (s : Holders) : ConnectionState.Event → List Builder
  | .runWrite i => s.builders.eraseIdx i
  | _ => s.builders

end Holders

inductive Event where
  /-- The connection takes a step of its own. -/
  | io (e : ConnectionState.Event)
  /-- `OnReadBody` runs for read `i`; `reply` is what `dispatch` writes back. -/
  | dispatch (i : ℕ) (reply : Option Message)
  /-- `dispatch` returns and `OnReadBody` goes on. -/
  | finish
  /-- `Call`, through `m_conn`, or `HandleConnection`, through `m_connection`,
  calls `Write`. -/
  | call (f : ℕ) (msg : Message)
  | ret (f : ℕ)
  /-- `m_connection` is reset, or set to another connection. -/
  | replace
  /-- `SetConnection`, with this connection or another. -/
  | setConnection (this : Bool)
  deriving DecidableEq

def step (abi : Abi) (s : Holders) : Event → Option Holders
  | .io e =>
      if s.Held ∧ s.Plain e then do
        let conn ← ConnectionState.step abi s.conn e
        some {s with
          conn := conn
          -- the close callback of a client resets `m_connection`
          connection := s.connection && !decide (s.conn.closecbCalls < conn.closecbCalls)
          builders := enter .returned conn.writes.length (s.remaining e)}
      else none
  | .dispatch i reply => do
      let op ← s.conn.reads[i]?
      if op.handler = .onReadBody ∧ op.result = some 0 ∧ s.callback = false then
        let conn ← dispatchBody abi reply {s.conn with reads := s.conn.reads.eraseIdx i}
        some {s with
          conn := conn
          callback := true
          builders := enter .dispatch conn.writes.length s.builders}
      else none
  | .finish =>
      if s.callback = true then
        some {s with
          conn := s.conn.readHead
          callback := false
          builders := leave .dispatch s.builders}
      else none
  | .call f msg =>
      if s.channel = true ∨ s.connection = true ∧ s.callback = false then do
        let conn ← s.conn.write abi msg
        some {s with
          conn := conn
          builders := enter (.caller f) conn.writes.length s.builders}
      else none
  | .ret f => some {s with builders := leave (.caller f) s.builders}
  | .replace => if s.connection = true then some {s with connection := false} else none
  | .setConnection this =>
      if this = true → s.Held then some {s with channel := this} else none

section Inversion
variable {abi : Abi} {s t : Holders} {e : ConnectionState.Event} {i f : ℕ} {msg : Message}
  {reply : Option Message} {this : Bool}

theorem step_io : step abi s (.io e) = some t ↔ s.Held ∧ s.Plain e ∧
    ∃ conn, ConnectionState.step abi s.conn e = some conn ∧ t = {s with
      conn := conn
      connection := s.connection && !decide (s.conn.closecbCalls < conn.closecbCalls)
      builders := enter .returned conn.writes.length (s.remaining e)} := by
  simp only [step,Option.ite_none_right_eq_some,Option.bind_eq_bind,Option.bind_eq_some_iff,
    Option.some.injEq,and_assoc,eq_comm (b := t)]

theorem step_dispatch : step abi s (.dispatch i reply) = some t ↔
    ∃ op, s.conn.reads[i]? = some op ∧ op.handler = .onReadBody ∧ op.result = some 0 ∧
      s.callback = false ∧ ∃ conn,
        dispatchBody abi reply {s.conn with reads := s.conn.reads.eraseIdx i} = some conn ∧
        t = {s with
          conn := conn
          callback := true
          builders := enter .dispatch conn.writes.length s.builders} := by
  simp only [step,Option.ite_none_right_eq_some,Option.bind_eq_bind,Option.bind_eq_some_iff,
    Option.some.injEq,and_assoc,eq_comm (b := t)]

theorem step_finish : step abi s .finish = some t ↔ s.callback = true ∧ t = {s with
    conn := s.conn.readHead
    callback := false
    builders := leave .dispatch s.builders} := by
  simp only [step,Option.ite_none_right_eq_some,Option.some.injEq,eq_comm (b := t)]

theorem step_call : step abi s (.call f msg) = some t ↔
    (s.channel = true ∨ s.connection = true ∧ s.callback = false) ∧
      ∃ conn, s.conn.write abi msg = some conn ∧ t = {s with
        conn := conn
        builders := enter (.caller f) conn.writes.length s.builders} := by
  simp only [step,Option.ite_none_right_eq_some,Option.bind_eq_bind,Option.bind_eq_some_iff,
    Option.some.injEq,eq_comm (b := t)]

theorem step_replace : step abi s .replace = some t ↔
    s.connection = true ∧ t = {s with connection := false} := by
  simp only [step,Option.ite_none_right_eq_some,Option.some.injEq,eq_comm (b := t)]

theorem step_setConnection : step abi s (.setConnection this) = some t ↔
    (this = true → s.Held) ∧ t = {s with channel := this} := by
  simp only [step,Option.ite_none_right_eq_some,Option.some.injEq,eq_comm (b := t)]

end Inversion

/-- The two steps of `OnReadBody` are the one that the connection takes. -/
theorem dispatch_finish {abi : Abi} {s t : Holders} {i : ℕ} {reply : Option Message}
    (h : GuardedRuns.exec (step abi) s [.dispatch i reply,.finish] = some t) :
    ConnectionState.step abi s.conn (.runRead i reply) = some t.conn := by
  obtain ⟨u,hu,hrun⟩ := (GuardedRuns.exec_cons_eq_some _).mp h
  obtain ⟨v,hv,hlast⟩ := (GuardedRuns.exec_cons_eq_some _).mp hrun
  obtain rfl := Option.some.inj hlast
  obtain ⟨op,hop,hbody,hres,_,conn,hconn,rfl⟩ := step_dispatch.mp hu
  obtain ⟨_,rfl⟩ := step_finish.mp hv
  refine step_runRead.mpr ⟨op,0,hop,hres,Or.inr ⟨hbody,?_⟩⟩
  rw [onReadBody_eq,hconn]
  rfl

/-- A connection after `Start`, on the client or on the server. -/
def fresh (client : Bool) (m : Message) (cb : Bool) (addr : String) : Holders :=
  {conn := started m cb addr, connection := client}

end SindiaRpc.ConnectionHolders
