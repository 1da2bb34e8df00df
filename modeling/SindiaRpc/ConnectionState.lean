import SindiaRpc.MessageFrames
import SindiaRpc.GuardedRuns

/-!
# One connection and its asynchronous operations (`common/connection.cpp`)

The callbacks and `Write` are functions on the connection's fields and on the
operations it has started. An operation is in progress until its result is
queued; the handler then runs as a separate step, so anything may happen
between the two. Closing the socket queues `operation_aborted` for what is
still in progress and leaves results already queued as they are.

What `dispatch` writes back on the connection is data of the step that runs
`OnReadBody`: the reply of any dispatcher is covered, and the dispatcher's own
module says which reply it is. A `dispatch` that throws leaves `io_service::run`
and ends the process, so it has no successor state. The history fields record
what the environment can observe and are read by no function of the code.
-/
namespace SindiaRpc.ConnectionState
open MessageFrames

/-- The value of a `boost::system::error_code`; zero is success. -/
abbrev ErrorCode := ℤ

def operationAborted : ErrorCode := 125
def badDescriptor : ErrorCode := 9

inductive ReadHandler where
  | onReadHead | onReadBody
  deriving DecidableEq, Repr

/-- An `async_read` into `m_buffer`; `result` is set once its completion is
queued. -/
structure ReadOp where
  handler : ReadHandler
  offset : ℕ
  length : ℕ
  result : Option ErrorCode := none
  deriving DecidableEq, Repr

/-- An `async_write` and the bytes it has still to send. `bound` is the error
value bound into its handler, `none` for `placeholders::error`. -/
structure WriteOp where
  unsent : Bytes
  bound : Option ErrorCode
  result : Option ErrorCode := none
  deriving DecidableEq, Repr

def ReadOp.abort (op : ReadOp) : ReadOp := {op with result := op.result <|> some operationAborted}
def WriteOp.abort (op : WriteOp) : WriteOp := {op with result := op.result <|> some operationAborted}

structure Connection where
  isOpen : Bool
  peeraddr : String := ""
  message : Message
  sendmsgqueue : List Message := []
  /-- Whether `m_closecb` holds a callback. -/
  closecb : Bool
  /-- Bytes the socket has received and no read has consumed. -/
  inbox : Bytes := []
  reads : List ReadOp := []
  writes : List WriteOp := []
  received : Bytes := []
  dispatched : List Message := []
  written : List Message := []
  /-- Messages for which an `async_write` was started. -/
  transmitted : List Message := []
  dropped : List Message := []
  wire : Bytes := []
  closes : ℕ := 0
  closecbCalls : ℕ := 0
  deriving DecidableEq

namespace Connection

/-- On a closed socket the operation fails at once. -/
def asyncRead (handler : ReadHandler) (offset length : ℕ) (s : Connection) : Connection :=
  {s with reads := s.reads ++
    [⟨handler,offset,length,if s.isOpen then none else some badDescriptor⟩]}

def asyncWrite (msg : Message) (bytes : Bytes) (bound : Option ErrorCode) (s : Connection) :
    Connection :=
  {s with
    writes := s.writes ++ [⟨bytes,bound,if s.isOpen then none else some badDescriptor⟩]
    transmitted := s.transmitted ++ [msg]}

/-- `Close`: the socket is cancelled, shut down and closed, then `m_closecb` is
called if it is set. Nothing records that this has been done before. -/
def close (s : Connection) : Connection :=
  {s with
    isOpen := false
    reads := s.reads.map ReadOp.abort
    writes := s.writes.map WriteOp.abort
    closes := s.closes + 1
    closecbCalls := s.closecbCalls + if s.closecb then 1 else 0}

def stop (s : Connection) : Connection := s.close

def onError (error : ErrorCode) (s : Connection) : Connection :=
  if error = 0 then s else s.close

def readHead (s : Connection) : Connection :=
  s.asyncRead .onReadHead 0 s.message.headerLength

def readBody (s : Connection) : Connection :=
  s.asyncRead .onReadBody s.message.data s.message.dataLength

/-- `Start`. The arguments are the results of the two `remote_endpoint` calls,
`none` where the call throws. -/
def start (ip : Option String) (port : Option ℕ) (s : Connection) : Option Connection :=
  if !s.isOpen then some s else
    match ip with
    | none => none
    | some peerip =>
        match port with
        | none => none
        | some p => some (readHead {s with peeraddr := peerip ++ ":" ++ toString p})

def onReadHead (abi : Abi) (error : ErrorCode) (s : Connection) : Connection :=
  if !s.isOpen then s
  else if error = 0 then
    match s.message.parseHeader abi with
    -- a refused header is passed on with the success code it was read with
    | (false,m) => onError error {s with message := m}
    | (true,m) => readBody {s with message := m}
  else onError error s

/-- `Write` sends at once exactly when nothing is queued. The range it hands to
`async_write` has to lie inside `m_buffer`. -/
def write (abi : Abi) (msg : Message) (s : Connection) : Option Connection :=
  let s := {s with written := s.written ++ [msg]}
  if s.sendmsgqueue.isEmpty then
    (msg.buffer.load 0 (msg.bufferLength abi)).map fun bytes => s.asyncWrite msg bytes none
  else some {s with sendmsgqueue := s.sendmsgqueue ++ [msg]}

def onReadBody (abi : Abi) (error : ErrorCode) (reply : Option Message) (s : Connection) :
    Option Connection :=
  if error = 0 then
    let s := {s with dispatched := s.dispatched ++ [s.message]}
    match reply with
    | none => some s.readHead
    | some msg => (s.write abi msg).map readHead
  else some (onError error s)

/-- The queued message is sent from `data()` with `buffer_length()` bytes, and
the handler is bound to the error of this completion. -/
def onWrite (abi : Abi) (error : ErrorCode) (s : Connection) : Option Connection :=
  if error = 0 then
    match s.sendmsgqueue with
    | [] => some s
    | msg :: rest =>
        (msg.buffer.load msg.data (msg.bufferLength abi)).map fun bytes =>
          asyncWrite msg bytes (some error) {s with sendmsgqueue := rest}
  else
    let s := onError error s
    some {s with sendmsgqueue := [], dropped := s.dropped ++ s.sendmsgqueue}

end Connection

inductive Event where
  /-- Bytes of the peer reach the socket. -/
  | receive (bytes : Bytes)
  /-- A read has all its bytes; its completion is queued with success. -/
  | readReady (i : ℕ)
  | readFail (i : ℕ) (error : ErrorCode)
  /-- The handler of a read runs; `reply` is what `dispatch` writes back. -/
  | runRead (i : ℕ) (reply : Option Message)
  | callWrite (msg : Message)
  | sendChunk (i n : ℕ)
  | writeReady (i : ℕ)
  | writeFail (i : ℕ) (error : ErrorCode)
  | runWrite (i : ℕ)
  | callStop
  deriving DecidableEq

open Connection in
def step (abi : Abi) (s : Connection) : Event → Option Connection
  | .receive bytes => some {s with inbox := s.inbox ++ bytes, received := s.received ++ bytes}
  | .readReady i => do
      let op ← s.reads[i]?
      if s.isOpen ∧ op.result = none ∧ op.length ≤ s.inbox.length then
        let buffer ← s.message.buffer.store op.offset (s.inbox.take op.length)
        some {s with
          message := {s.message with buffer := buffer}
          inbox := s.inbox.drop op.length
          reads := s.reads.set i {op with result := some 0}}
      else none
  | .readFail i error => do
      let op ← s.reads[i]?
      if op.result = none ∧ error ≠ 0 then
        some {s with reads := s.reads.set i {op with result := some error}}
      else none
  | .runRead i reply => do
      let op ← s.reads[i]?
      let error ← op.result
      let s := {s with reads := s.reads.eraseIdx i}
      match op.handler with
      | .onReadHead => some (s.onReadHead abi error)
      | .onReadBody => s.onReadBody abi error reply
  | .callWrite msg => s.write abi msg
  | .sendChunk i n => do
      let op ← s.writes[i]?
      if s.isOpen ∧ op.result = none ∧ 0 < n ∧ n ≤ op.unsent.length then
        some {s with
          wire := s.wire ++ op.unsent.take n
          writes := s.writes.set i {op with unsent := op.unsent.drop n}}
      else none
  | .writeReady i => do
      let op ← s.writes[i]?
      if op.result = none ∧ op.unsent = [] then
        some {s with writes := s.writes.set i {op with result := some 0}}
      else none
  | .writeFail i error => do
      let op ← s.writes[i]?
      if op.result = none ∧ error ≠ 0 then
        some {s with writes := s.writes.set i {op with result := some error}}
      else none
  | .runWrite i => do
      let op ← s.writes[i]?
      let error ← op.result
      onWrite abi (op.bound.getD error) {s with writes := s.writes.eraseIdx i}
  | .callStop => some s.stop

/-- The message that is dispatched when the handler of read `i` runs. -/
def incoming (s : Connection) (i : ℕ) : Option Message :=
  s.reads[i]?.bind fun op =>
    if op.handler = .onReadBody ∧ op.result = some 0 then some s.message else none

def dispatching (s : Connection) : Event → Option Message
  | .runRead i _ => incoming s i
  | _ => none

/-- What is passed to `Write`. -/
def writing (s : Connection) : Event → Option Message
  | .callWrite msg => some msg
  | .runRead i reply => (incoming s i).bind fun _ => reply
  | _ => none

/-! ### What one step does -/

section Inversion
variable {abi : Abi} {s t : Connection} {i n : ℕ} {error : ErrorCode} {reply : Option Message}

theorem step_readReady : step abi s (.readReady i) = some t ↔
    ∃ op buffer, s.reads[i]? = some op ∧ s.isOpen = true ∧ op.result = none ∧
      op.length ≤ s.inbox.length ∧
      s.message.buffer.store op.offset (s.inbox.take op.length) = some buffer ∧
      t = {s with
        message := {s.message with buffer := buffer}
        inbox := s.inbox.drop op.length
        reads := s.reads.set i {op with result := some 0}} := by
  simp only [step,Option.bind_eq_bind,Option.bind_eq_some_iff,Option.ite_none_right_eq_some,
    Option.some.injEq]
  constructor
  · intro hex
    rcases hex with ⟨op,hop,⟨ho,hr,hl⟩,buffer,hb,rfl⟩
    exact ⟨op,buffer,hop,ho,hr,hl,hb,rfl⟩
  · intro hex
    rcases hex with ⟨op,buffer,hop,ho,hr,hl,hb,rfl⟩
    exact ⟨op,hop,⟨ho,hr,hl⟩,buffer,hb,rfl⟩

theorem step_readFail : step abi s (.readFail i error) = some t ↔
    ∃ op, s.reads[i]? = some op ∧ op.result = none ∧ error ≠ 0 ∧
      t = {s with reads := s.reads.set i {op with result := some error}} := by
  simp only [step,Option.bind_eq_bind,Option.bind_eq_some_iff,Option.ite_none_right_eq_some,
    Option.some.injEq,and_assoc,eq_comm (b := t)]

/-- The handler of read `i` runs on what is left of the connection. -/
theorem step_runRead : step abi s (.runRead i reply) = some t ↔
    ∃ op e, s.reads[i]? = some op ∧ op.result = some e ∧
      (op.handler = .onReadHead ∧
          t = Connection.onReadHead abi e {s with reads := s.reads.eraseIdx i} ∨
        op.handler = .onReadBody ∧
          Connection.onReadBody abi e reply {s with reads := s.reads.eraseIdx i} = some t) := by
  simp only [step,Option.bind_eq_bind,Option.bind_eq_some_iff]
  constructor
  · intro hex
    rcases hex with ⟨op,hop,e,he,h⟩
    refine ⟨op,e,hop,he,?_⟩
    cases hh : op.handler with
    | onReadHead =>
        rw [hh] at h
        exact Or.inl ⟨rfl,(Option.some.inj h).symm⟩
    | onReadBody =>
        rw [hh] at h
        exact Or.inr ⟨rfl,h⟩
  · intro hex
    rcases hex with ⟨op,e,hop,he,⟨hh,rfl⟩ | ⟨hh,h⟩⟩
    · exact ⟨op,hop,e,he,by rw [hh]⟩
    · exact ⟨op,hop,e,he,by rw [hh]; exact h⟩

theorem step_sendChunk : step abi s (.sendChunk i n) = some t ↔
    ∃ op, s.writes[i]? = some op ∧ s.isOpen = true ∧ op.result = none ∧ 0 < n ∧
      n ≤ op.unsent.length ∧
      t = {s with
        wire := s.wire ++ op.unsent.take n
        writes := s.writes.set i {op with unsent := op.unsent.drop n}} := by
  simp only [step,Option.bind_eq_bind,Option.bind_eq_some_iff,Option.ite_none_right_eq_some,
    Option.some.injEq,and_assoc,eq_comm (b := t)]

theorem step_writeReady : step abi s (.writeReady i) = some t ↔
    ∃ op, s.writes[i]? = some op ∧ op.result = none ∧ op.unsent = [] ∧
      t = {s with writes := s.writes.set i {op with result := some 0}} := by
  simp only [step,Option.bind_eq_bind,Option.bind_eq_some_iff,Option.ite_none_right_eq_some,
    Option.some.injEq,and_assoc,eq_comm (b := t)]

theorem step_writeFail : step abi s (.writeFail i error) = some t ↔
    ∃ op, s.writes[i]? = some op ∧ op.result = none ∧ error ≠ 0 ∧
      t = {s with writes := s.writes.set i {op with result := some error}} := by
  simp only [step,Option.bind_eq_bind,Option.bind_eq_some_iff,Option.ite_none_right_eq_some,
    Option.some.injEq,and_assoc,eq_comm (b := t)]

theorem incoming_eq_some {m : Message} : incoming s i = some m ↔ ∃ op, s.reads[i]? = some op ∧
    op.handler = .onReadBody ∧ op.result = some 0 ∧ m = s.message := by
  simp only [incoming,Option.bind_eq_some_iff,Option.ite_none_right_eq_some,Option.some.injEq,
    and_assoc,eq_comm (b := m)]

/-- With nothing queued `Write` starts sending the frame of the message. -/
theorem write_unqueued {msg : Message} (hq : s.sendmsgqueue = []) :
    s.write abi msg = some t ↔ Buffer.InRange 4096 0 (msg.bufferLength abi) ∧
      t = {s with
        writes := s.writes ++
          [⟨msg.frame abi,none,if s.isOpen then none else some badDescriptor⟩]
        written := s.written ++ [msg]
        transmitted := s.transmitted ++ [msg]} := by
  unfold Connection.write Connection.asyncWrite
  rw [if_pos (by simp only [hq,List.isEmpty_nil]),Option.map_eq_some_iff]
  constructor
  · intro hex
    rcases hex with ⟨bytes,hload,rfl⟩
    obtain ⟨hr,rfl⟩ := Buffer.load_eq_some.mp hload
    exact ⟨hr,rfl⟩
  · intro hex
    rcases hex with ⟨hr,rfl⟩
    exact ⟨msg.frame abi,Buffer.load_eq_some.mpr ⟨hr,rfl⟩,rfl⟩

theorem step_runWrite : step abi s (.runWrite i) = some t ↔
    ∃ op e, s.writes[i]? = some op ∧ op.result = some e ∧
      Connection.onWrite abi (op.bound.getD e) {s with writes := s.writes.eraseIdx i} = some t := by
  simp only [step,Option.bind_eq_bind,Option.bind_eq_some_iff,exists_and_left]

end Inversion

/-- A connection whose socket is open and connected, before `Start`. -/
def connected (m : Message) (cb : Bool) : Connection := {isOpen := true, message := m, closecb := cb}

/-- The same connection after `Start`. -/
def started (m : Message) (cb : Bool) (addr : String) : Connection :=
  {isOpen := true, peeraddr := addr, message := m, closecb := cb,
    reads := [⟨.onReadHead,0,20,none⟩]}

theorem start_connected (m : Message) (cb : Bool) (ip : String) (port : ℕ) :
    (connected m cb).start (some ip) (some port) =
      some (started m cb (ip ++ ":" ++ toString port)) := by
  simp [Connection.start,Connection.readHead,Connection.asyncRead,connected,started]

/-- One-byte messages, numbered by id. -/
def sample (id : UInt32) : Message := (Message.build .little [id.toUInt8] 1 id 0 0).getD .empty

end SindiaRpc.ConnectionState
