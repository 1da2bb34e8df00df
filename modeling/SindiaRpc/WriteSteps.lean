import SindiaRpc.ConnectionState
import SindiaRpc.ListUpdates
import SindiaRpc.Outboxes

/-!
# What a step does to the writing half of a connection

The read handlers reach the fields that `Write` and `OnWrite` work on in two
ways only: a failed read closes, and `dispatch` writes a reply. So a step of the
connection changes these fields in one of a few ways, each of which can be told
from them alone. What the queue, the handlers and the address keep is read off
the relation.
-/
namespace SindiaRpc.WriteSteps
open MessageFrames ConnectionState ListUpdates

structure WriteSide where
  isOpen : Bool
  peeraddr : String
  sendmsgqueue : List Message
  writes : List WriteOp
  written : List Message
  transmitted : List Message
  dropped : List Message

def writeSide (s : Connection) : WriteSide :=
  ⟨s.isOpen,s.peeraddr,s.sendmsgqueue,s.writes,s.written,s.transmitted,s.dropped⟩

def WriteSide.close (w : WriteSide) : WriteSide :=
  {w with isOpen := false, writes := w.writes.map WriteOp.abort}

def WriteSide.asyncWrite (msg : Message) (bytes : Bytes) (bound : Option ErrorCode)
    (w : WriteSide) : WriteSide :=
  {w with
    writes := w.writes ++ [⟨bytes,bound,if w.isOpen then none else some badDescriptor⟩]
    transmitted := w.transmitted ++ [msg]}

/-- The flag tells whether the handler of a write has run. -/
inductive WriteStep (abi : Abi) (w : WriteSide) : Bool → WriteSide → Prop
  | same : WriteStep abi w false w
  | close : WriteStep abi w false w.close
  | write (msg : Message) (hq : w.sendmsgqueue = []) : WriteStep abi w false
      (WriteSide.asyncWrite msg (msg.frame abi) none {w with written := w.written ++ [msg]})
  | queue (msg : Message) (hq : w.sendmsgqueue ≠ []) : WriteStep abi w false {w with
      sendmsgqueue := w.sendmsgqueue ++ [msg]
      written := w.written ++ [msg]}
  /-- Bytes are sent, or the result is queued. -/
  | progress (i : ℕ) (op op' : WriteOp) (hop : w.writes[i]? = some op)
      (hbound : op'.bound = op.bound) (hrest : op'.unsent <:+ op.unsent) :
      WriteStep abi w false {w with writes := w.writes.set i op'}
  | finish (i : ℕ) (hi : i < w.writes.length) (hq : w.sendmsgqueue = []) :
      WriteStep abi w true {w with writes := w.writes.eraseIdx i}
  | next (i : ℕ) (msg : Message) (rest : List Message) (bytes : Bytes) (hi : i < w.writes.length)
      (hq : w.sendmsgqueue = msg :: rest) : WriteStep abi w true
      (WriteSide.asyncWrite msg bytes (some 0)
        {w with sendmsgqueue := rest, writes := w.writes.eraseIdx i})
  | fail (i : ℕ) (hi : i < w.writes.length) : WriteStep abi w true {w with
      isOpen := false
      sendmsgqueue := []
      writes := (w.writes.eraseIdx i).map WriteOp.abort
      dropped := w.dropped ++ w.sendmsgqueue}

def WriteSide.outbox (w : WriteSide) : Outbox Message where
  accepted := w.written
  started := w.transmitted
  waiting := w.sendmsgqueue
  dropped := w.dropped
  active := w.writes.length

section Sides
variable {abi : Abi} {w w' : WriteSide} {done : Bool}

theorem WriteStep.move (h : WriteStep abi w done w') : w.outbox.Move w'.outbox := by
  have hsame {active : ℕ} (hn : active = w.writes.length) :
      w.outbox.Move {w.outbox with active := active} := hn ▸ .stay
  cases h with
  | same => exact .stay
  | close => exact hsame (List.length_map _)
  | write msg hq =>
      have hmove : w.outbox.Move _ := .start msg hq
      simpa only [WriteSide.outbox,WriteSide.asyncWrite,List.length_append,
        List.length_singleton] using hmove
  | queue msg hq => exact .wait msg hq
  | progress i op op' hop hbound hrest => exact hsame List.length_set
  | finish i hi hq =>
      have hmove : w.outbox.Move _ := .finish hq
      simpa only [WriteSide.outbox,List.length_eraseIdx_of_lt hi] using hmove
  | next i msg rest bytes hi hq =>
      have hmove : w.outbox.Move _ := .next msg rest hq (Nat.zero_lt_of_lt hi)
      have hlen : w.writes.length - 1 + 1 = w.writes.length := by omega
      simpa only [WriteSide.outbox,WriteSide.asyncWrite,List.length_append,List.length_singleton,
        List.length_eraseIdx_of_lt hi,hlen] using hmove
  | fail i hi =>
      have hmove : w.outbox.Move _ := .clear
      simpa only [WriteSide.outbox,List.length_map,List.length_eraseIdx_of_lt hi] using hmove

/-- `OnWrite` starts an operation only when it was called with success. -/
theorem WriteStep.bound (h : WriteStep abi w done w')
    (hw : ∀ op ∈ w.writes, op.bound = none ∨ op.bound = some 0) :
    ∀ op ∈ w'.writes, op.bound = none ∨ op.bound = some 0 := by
  have herase : ∀ i, ∀ op ∈ w.writes.eraseIdx i, op.bound = none ∨ op.bound = some 0 :=
    fun i op hop => hw op (List.mem_of_mem_eraseIdx hop)
  cases h with
  | same | queue _ _ => exact hw
  | close => exact List.forall_mem_map.mpr hw
  | write msg hq => exact forall_mem_concat hw (Or.inl rfl)
  | progress i op op' hop hbound hrest =>
      apply forall_mem_set hw
      rw [hbound]
      exact hw op (List.mem_of_getElem? hop)
  | finish i hi hq => exact herase i
  | next i msg rest bytes hi hq => exact forall_mem_concat (herase i) (Or.inr rfl)
  | fail i hi => exact List.forall_mem_map.mpr (herase i)

/-- A completion takes the first message from the queue, or drops all. -/
theorem WriteStep.drains (h : WriteStep abi w true w') :
    w'.sendmsgqueue = w.sendmsgqueue.tail ∨ w'.sendmsgqueue = [] := by
  cases h with
  | finish i hi hq => exact Or.inr hq
  | next i msg rest bytes hi hq =>
      left
      rw [hq]
      rfl
  | fail i hi => exact Or.inr rfl

/-- Only `Start` stores the address. -/
theorem WriteStep.peeraddr (h : WriteStep abi w done w') : w'.peeraddr = w.peeraddr := by
  cases h with
  | same | close | write _ _ | queue _ _ | progress _ _ _ _ _ _ | finish _ _ _
  | next _ _ _ _ _ _ | fail _ _ => rfl

end Sides

/-- The handler of a write runs. -/
def completes : Event → Bool
  | .runWrite _ => true
  | _ => false

section Steps
variable {abi : Abi} {s t : Connection} {e : Event}

theorem writeStep_onError (error : ErrorCode) (s : Connection) :
    WriteStep abi (writeSide s) false (writeSide (s.onError error)) := by
  unfold Connection.onError
  split_ifs
  · exact .same
  · exact .close

theorem writeStep_onReadHead (error : ErrorCode) (s : Connection) :
    WriteStep abi (writeSide s) false (writeSide (s.onReadHead abi error)) := by
  unfold Connection.onReadHead
  split_ifs
  · exact .same
  · split
    · rename_i m _
      exact writeStep_onError error {s with message := m}
    · exact .same
  · exact writeStep_onError error s

theorem writeStep_write {msg : Message} (h : s.write abi msg = some t) :
    WriteStep abi (writeSide s) false (writeSide t) := by
  by_cases hq : s.sendmsgqueue = []
  · obtain ⟨_,rfl⟩ := (write_unqueued hq).mp h
    exact .write msg hq
  · simp only [Connection.write,List.isEmpty_iff,if_neg hq] at h
    cases h
    exact .queue msg hq

theorem writeStep_onReadBody {error : ErrorCode} {reply : Option Message}
    (h : s.onReadBody abi error reply = some t) :
    WriteStep abi (writeSide s) false (writeSide t) := by
  simp only [Connection.onReadBody] at h
  split_ifs at h
  · cases reply with
    | none =>
        cases h
        exact .same
    | some msg =>
        obtain ⟨u,hu,rfl⟩ := Option.map_eq_some_iff.mp h
        have hwrite := writeStep_write hu
        exact hwrite
  · cases h
    exact writeStep_onError error s

theorem writeStep_runWrite {i : ℕ} {error : ErrorCode} (hi : i < s.writes.length)
    (h : Connection.onWrite abi error {s with writes := s.writes.eraseIdx i} = some t) :
    WriteStep abi (writeSide s) true (writeSide t) := by
  unfold Connection.onWrite at h
  split_ifs at h with he
  · subst he
    cases hq : s.sendmsgqueue with
    | nil =>
        simp only [hq] at h
        cases h
        have hstep : WriteStep abi (writeSide s) true _ := .finish i hi hq
        simpa only [writeSide,hq] using hstep
    | cons msg rest =>
        simp only [hq] at h
        obtain ⟨bytes,_,rfl⟩ := Option.map_eq_some_iff.mp h
        have hstep : WriteStep abi (writeSide s) true _ := .next i msg rest bytes hi hq
        exact hstep
  · rw [Connection.onError,if_neg he] at h
    cases h
    exact .fail i hi

theorem step_writeSide (hs : step abi s e = some t) :
    WriteStep abi (writeSide s) (completes e) (writeSide t) := by
  cases e with
  | receive bytes =>
      cases hs
      exact .same
  | readReady i =>
      obtain ⟨op,buffer,_,_,_,_,_,rfl⟩ := step_readReady.mp hs
      exact .same
  | readFail i error =>
      obtain ⟨op,_,_,_,rfl⟩ := step_readFail.mp hs
      exact .same
  | runRead i reply =>
      obtain ⟨op,error,_,_,⟨_,rfl⟩ | ⟨_,hrun⟩⟩ := step_runRead.mp hs
      · exact writeStep_onReadHead error {s with reads := s.reads.eraseIdx i}
      · have hbody := writeStep_onReadBody hrun
        exact hbody
  | callWrite msg => exact writeStep_write hs
  | sendChunk i n =>
      obtain ⟨op,hop,_,_,_,_,rfl⟩ := step_sendChunk.mp hs
      exact .progress i op _ hop rfl (List.drop_suffix n _)
  | writeReady i =>
      obtain ⟨op,hop,_,_,rfl⟩ := step_writeReady.mp hs
      exact .progress i op _ hop rfl List.suffix_rfl
  | writeFail i error =>
      obtain ⟨op,hop,_,_,rfl⟩ := step_writeFail.mp hs
      exact .progress i op _ hop rfl List.suffix_rfl
  | runWrite i =>
      obtain ⟨op,error,hop,_,hrun⟩ := step_runWrite.mp hs
      exact writeStep_runWrite (List.getElem?_eq_some_iff.mp hop).choose hrun
  | callStop =>
      cases hs
      exact .close

theorem peeraddr_step (hs : step abi s e = some t) : t.peeraddr = s.peeraddr :=
  (step_writeSide hs).peeraddr

end Steps
end SindiaRpc.WriteSteps
