import SindiaRpc.ConnectionState
import SindiaRpc.OrderedSink
import SindiaRpc.ListUpdates
import Mathlib.Data.List.InsertIdx

/-!
# The order of bytes on the socket

`Write` decides by the emptiness of `m_sendmsgqueue`, and only the branch for a
nonempty queue adds to it, so nothing is ever queued and every message is sent
at once, next to whatever is still being sent. The bytes keep the order of the
`Write` calls in the runs where each call finds no unsent bytes; the write side
of the connection is then an ordered sink.
-/
namespace SindiaRpc.ConnectionWrites
open MessageFrames ConnectionState GuardedRuns ListUpdates

def frames (abi : Abi) (ms : List Message) : Bytes := (ms.map (Message.frame abi)).flatten

theorem frames_concat (abi : Abi) (ms : List Message) (m : Message) :
    frames abi (ms ++ [m]) = frames abi ms ++ m.frame abi := by
  simp [frames]

/-- What has reached the socket is a prefix of the frames of the messages
passed to `Write`, in call order. -/
def InOrder (abi : Abi) (s : Connection) : Prop := s.wire <+: frames abi s.written

instance (abi : Abi) (s : Connection) : Decidable (InOrder abi s) :=
  inferInstanceAs (Decidable (_ <+: _))

/-- No operation in progress has bytes to send. -/
def WritesIdle (s : Connection) : Prop := ∀ op ∈ s.writes, op.unsent = []

instance (s : Connection) : Decidable (WritesIdle s) := List.decidableBAll _ _

/-- A step that passes a message to `Write` finds the write side idle. -/
def PacedStep (s : Connection) (e : Event) : Prop := (writing s e).isSome → WritesIdle s

instance (s : Connection) (e : Event) : Decidable (PacedStep s e) :=
  inferInstanceAs (Decidable (_ → _))

/-- Nothing has been passed to `Write` yet. -/
structure Unwritten (s : Connection) : Prop where
  queue : s.sendmsgqueue = []
  writes : s.writes = []
  written : s.written = []
  wire : s.wire = []

def sink (abi : Abi) (s : Connection) : Sink UInt8 :=
  ⟨frames abi s.written,s.wire,s.writes.map WriteOp.unsent⟩

/-- A handler that will see success has nothing left to send. -/
def Settled (op : WriteOp) : Prop := op.bound = none ∧ (op.result = some 0 → op.unsent = [])

/-- Once the socket is closed nothing more is sent, and what was sent stays. -/
structure Sequenced (abi : Abi) (s : Connection) : Prop where
  queue : s.sendmsgqueue = []
  inOrder : InOrder abi s
  settled : ∀ op ∈ s.writes, Settled op
  ordered : s.isOpen = true → (sink abi s).Ordered

theorem WritesIdle.sink {s : Connection} (h : WritesIdle s) (abi : Abi) : (sink abi s).Idle := by
  intro a ha
  obtain ⟨op,hop,rfl⟩ := List.mem_map.mp ha
  exact h op hop

theorem Settled.abort {op : WriteOp} (h : Settled op) : Settled op.abort := by
  refine ⟨h.1,fun hr => h.2 ?_⟩
  cases ho : op.result with
  | none => simp [WriteOp.abort,ho,operationAborted] at hr
  | some e => simpa [WriteOp.abort,ho] using hr

theorem Unwritten.sequenced {s : Connection} (h : Unwritten s) (abi : Abi) : Sequenced abi s := by
  refine ⟨h.queue,?_,?_,fun _ => ⟨?_,?_⟩⟩
  · rw [InOrder,h.wire]
    exact List.nil_prefix
  · simp [h.writes]
  · simp [ConnectionWrites.sink,frames,h.written,h.wire,h.writes]
  · simp [ConnectionWrites.sink,h.writes]

namespace Sequenced
variable {abi : Abi} {s t : Connection}

theorem close (h : Sequenced abi s) : Sequenced abi s.close := by
  refine ⟨h.queue,h.inOrder,?_,fun ho => by cases ho⟩
  intro op hop
  obtain ⟨op',hop',rfl⟩ := List.mem_map.mp hop
  exact (h.settled op' hop').abort

theorem onError (h : Sequenced abi s) (error : ErrorCode) : Sequenced abi (s.onError error) := by
  unfold Connection.onError
  split_ifs
  · exact h
  · exact h.close

/-- The read side is none of the write side's business. -/
theorem withReads (h : Sequenced abi s) (m : Message) (rs : List ReadOp) :
    Sequenced abi {s with message := m, reads := rs} :=
  ⟨h.queue,h.inOrder,h.settled,h.ordered⟩

theorem onReadHead (h : Sequenced abi s) (error : ErrorCode) :
    Sequenced abi (s.onReadHead abi error) := by
  unfold Connection.onReadHead
  split_ifs
  · exact h
  · split
    · exact (h.withReads _ s.reads).onError error
    · exact h.withReads _ _
  · exact h.onError error

/-- The queue test of `Write` succeeds, so the frame joins the sink. -/
theorem write (h : Sequenced abi s) (hi : WritesIdle s) {msg : Message}
    (hw : s.write abi msg = some t) : Sequenced abi t := by
  obtain ⟨_,rfl⟩ := (write_unqueued h.queue).mp hw
  refine ⟨h.queue,?_,?_,fun ho => ?_⟩
  · change s.wire <+: frames abi (s.written ++ [msg])
    rw [frames_concat]
    exact h.inOrder.trans (List.prefix_append _ _)
  · intro op hop
    rcases List.mem_append.mp hop with hop | hop
    · exact h.settled op hop
    · rw [List.mem_singleton.mp hop]
      refine ⟨rfl,fun hr => ?_⟩
      split_ifs at hr
      simp [badDescriptor] at hr
  · have hs := (h.ordered ho).submit (hi.sink abi) (msg.frame abi)
    refine Eq.mp (congrArg Sink.Ordered ?_) hs
    simp only [Sink.submit,sink,frames_concat,List.map_append,List.map_cons,List.map_nil]

/-- Only a body that was read is replied to. -/
theorem onReadBody (h : Sequenced abi s) {error : ErrorCode} {reply : Option Message}
    (hi : error = 0 → reply.isSome → WritesIdle s) (hr : s.onReadBody abi error reply = some t) :
    Sequenced abi t := by
  unfold Connection.onReadBody at hr
  split_ifs at hr with he
  · have hd : Sequenced abi {s with dispatched := s.dispatched ++ [s.message]} :=
      ⟨h.queue,h.inOrder,h.settled,h.ordered⟩
    cases reply with
    | none => exact Option.some.inj hr ▸ hd.withReads s.message _
    | some msg =>
        obtain ⟨u,hu,rfl⟩ := Option.map_eq_some_iff.mp hr
        have hseq := hd.write (hi he rfl) hu
        exact hseq.withReads u.message _
  · exact Option.some.inj hr ▸ h.onError error

/-- With nothing queued a completion starts no further write. -/
theorem onWrite (h : Sequenced abi s) {error : ErrorCode}
    (hr : s.onWrite abi error = some t) : Sequenced abi t := by
  unfold Connection.onWrite at hr
  split_ifs at hr
  · rw [h.queue] at hr
    exact Option.some.inj hr ▸ h
  · have he := h.onError error
    exact Option.some.inj hr ▸ ⟨rfl,he.inOrder,he.settled,he.ordered⟩

/-- Replacing an operation changes the sink at its place. -/
theorem set (h : Sequenced abi s) (i : ℕ) (op : WriteOp) (hop : Settled op) (wire : Bytes)
    (hin : wire <+: frames abi s.written)
    (hord : s.isOpen = true →
      (⟨frames abi s.written,wire,(s.writes.map WriteOp.unsent).set i op.unsent⟩ :
        Sink UInt8).Ordered) :
    Sequenced abi {s with wire := wire, writes := s.writes.set i op} := by
  refine ⟨h.queue,hin,forall_mem_set h.settled hop,?_⟩
  intro ho
  simpa only [sink,List.map_set] using hord ho

/-- Queueing a result leaves the unsent bytes alone. -/
theorem setResult (h : Sequenced abi s) {i : ℕ} {op : WriteOp} (hop : s.writes[i]? = some op)
    (r : Option ErrorCode) (hr : r = some 0 → op.unsent = []) :
    Sequenced abi {s with writes := s.writes.set i {op with result := r}} := by
  have hold := h.settled op (List.mem_of_getElem? hop)
  refine h.set i {op with result := r} ⟨hold.1,hr⟩ s.wire h.inOrder fun ho => ?_
  have hsame := map_set_same WriteOp.unsent (b := {op with result := r}) hop rfl
  rw [List.map_set] at hsame
  rw [hsame]
  exact h.ordered ho

theorem sendChunk (h : Sequenced abi s) {i n : ℕ} {op : WriteOp} (hop : s.writes[i]? = some op)
    (ho : s.isOpen = true) (hres : op.result = none) (hn : 0 < n) (hlen : n ≤ op.unsent.length) :
    Sequenced abi {s with
      wire := s.wire ++ op.unsent.take n
      writes := s.writes.set i {op with unsent := op.unsent.drop n}} := by
  have hget : (sink abi s).pending[i]? = some op.unsent := by
    simp only [sink,List.getElem?_map,hop,Option.map_some]
  have hne : op.unsent ≠ [] := by
    intro hnil
    rw [hnil,List.length_nil] at hlen
    omega
  have hp := (h.ordered ho).push (n := n) hget hne
  have hold := h.settled op (List.mem_of_getElem? hop)
  refine h.set i {op with unsent := op.unsent.drop n} ⟨hold.1,fun hr => ?_⟩ _
    hp.sent_prefix fun _ => hp
  rw [hres] at hr
  cases hr

/-- A successful completion retires an operation that is done; a failed one
closes the socket. -/
theorem runWrite (h : Sequenced abi s) {i : ℕ} {op : WriteOp} {e : ErrorCode}
    (hop : s.writes[i]? = some op) (he : op.result = some e)
    (hr : Connection.onWrite abi (op.bound.getD e) {s with writes := s.writes.eraseIdx i} =
      some t) :
    Sequenced abi t := by
  have hold := h.settled op (List.mem_of_getElem? hop)
  have hmem : ∀ op' ∈ s.writes.eraseIdx i, Settled op' := fun op' hop' =>
    h.settled op' (List.mem_of_mem_eraseIdx hop')
  rw [hold.1,Option.getD_none] at hr
  by_cases hz : e = 0
  · have hget : (sink abi s).pending[i]? = some [] := by
      simp only [sink,List.getElem?_map,hop,Option.map_some]
      rw [hold.2 (by rw [he,hz])]
    have hs : Sequenced abi {s with writes := s.writes.eraseIdx i} := by
      refine ⟨h.queue,h.inOrder,hmem,fun ho => ?_⟩
      have hret := (h.ordered ho).retire hget
      simpa only [Sink.retire,sink,List.eraseIdx_map] using hret
    exact hs.onWrite hr
  · simp only [Connection.onWrite,Connection.onError,if_neg hz,Option.some.injEq] at hr
    subst hr
    refine ⟨rfl,h.inOrder,?_,fun ho => by cases ho⟩
    intro op' hop'
    obtain ⟨op'',hop'',rfl⟩ := List.mem_map.mp hop'
    exact (hmem op'' hop'').abort

theorem step (h : Sequenced abi s) {e : Event} (hp : PacedStep s e)
    (hs : ConnectionState.step abi s e = some t) : Sequenced abi t := by
  cases e with
  | receive bytes => exact Option.some.inj hs ▸ ⟨h.queue,h.inOrder,h.settled,h.ordered⟩
  | readReady i =>
      obtain ⟨op,buffer,_,_,_,_,_,rfl⟩ := step_readReady.mp hs
      exact ⟨h.queue,h.inOrder,h.settled,h.ordered⟩
  | readFail i error =>
      obtain ⟨op,_,_,_,rfl⟩ := step_readFail.mp hs
      exact h.withReads s.message _
  | runRead i reply =>
      obtain ⟨op,e,hop,hres,⟨_,rfl⟩ | ⟨hbody,hb⟩⟩ := step_runRead.mp hs
      · exact (h.withReads s.message _).onReadHead e
      · refine (h.withReads s.message (s.reads.eraseIdx i)).onReadBody ?_ hb
        intro he hreply
        have hin : incoming s i = some s.message :=
          incoming_eq_some.mpr ⟨op,hop,hbody,by rw [hres,he],rfl⟩
        refine hp ?_
        rw [writing,hin]
        exact hreply
  | callWrite msg => exact h.write (hp rfl) hs
  | sendChunk i n =>
      obtain ⟨op,hop,ho,hres,hn,hlen,rfl⟩ := step_sendChunk.mp hs
      exact h.sendChunk hop ho hres hn hlen
  | writeReady i =>
      obtain ⟨op,hop,_,hu,rfl⟩ := step_writeReady.mp hs
      exact h.setResult hop _ fun _ => hu
  | writeFail i error =>
      obtain ⟨op,hop,_,hne,rfl⟩ := step_writeFail.mp hs
      exact h.setResult hop _ fun hr => absurd (Option.some.inj hr) hne
  | runWrite i =>
      obtain ⟨op,e,hop,he,hw⟩ := step_runWrite.mp hs
      exact h.runWrite hop he hw
  | callStop => exact Option.some.inj hs ▸ h.close

end Sequenced

/-- In a run whose `Write` calls all find the write side idle the bytes on the
socket are in call order, whatever asio does in between. -/
theorem writes_in_order (abi : Abi) (s : Connection) (hs : Unwritten s) (es : List Event)
    (hp : AllSteps (step abi) PacedStep s es) : AllStates (step abi) (InOrder abi) s es :=
  (allStates_of_allSteps (fun _ _ _ hi hc ht => Sequenced.step hi hc ht) (hs.sequenced abi)
    hp).mono fun _ h => h.inOrder

theorem started_unwritten (m : Message) (cb : Bool) (addr : String) :
    Unwritten (started m cb addr) := ⟨rfl,rfl,rfl,rfl⟩

/-- A first write that completes before the second one starts. -/
def pacedRun : List Event :=
  [.callWrite (sample 1),.sendChunk 0 21,.callWrite (sample 2),.writeReady 0,.runWrite 0,
    .sendChunk 0 5]

theorem writes_in_order_paced :
    AllSteps (step (lp64 .little)) PacedStep (started .empty true "") pacedRun ∧
      AllStates (step (lp64 .little)) (InOrder (lp64 .little)) (started .empty true "") pacedRun :=
  have hp : AllSteps (step (lp64 .little)) PacedStep (started .empty true "") pacedRun := by decide
  ⟨hp,writes_in_order _ _ (started_unwritten _ _ _) _ hp⟩

/-- The second message is sent while the first one is half sent. -/
def overlappingRun : List Event :=
  [.callWrite (sample 1),.sendChunk 0 10,.callWrite (sample 2),.sendChunk 1 21,.sendChunk 0 11]

def writeFailure : Event → Bool
  | .writeFail _ _ => true
  | _ => false

/-- No write fails, both frames are sent completely, and they interleave. -/
theorem frames_interleave :
    overlappingRun.all (fun e => !writeFailure e) ∧
      ¬ AllStates (step (lp64 .little)) (InOrder (lp64 .little)) (started .empty true "")
        overlappingRun := by
  decide

end SindiaRpc.ConnectionWrites
