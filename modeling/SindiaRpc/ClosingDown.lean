import SindiaRpc.ClosedConnections
import SindiaRpc.StreamReading
import Mathlib.Algebra.BigOperators.Group.List.Basic

/-!
# How long a closed connection goes on

Handlers of a closed connection start operations still: `OnReadBody` reads the
next header, `dispatch` replies, and each fails at once and has a handler of its
own. There is no loop in this. What is outstanding when the socket is closed
bounds how many handlers run afterwards, up to the messages that other threads
pass to `Write`; and the last of them leaves nothing behind that would keep the
object alive.
-/
namespace SindiaRpc.ClosingDown
open MessageFrames ConnectionState ConnectionWrites ReadLoop StreamReading ClosedConnections
  GuardedRuns ListUpdates

/-- A handler runs. -/
def handles : Event → Bool
  | .runRead _ _ | .runWrite _ => true
  | _ => false

/-- Another thread calls `Write`. -/
def calls : Event → Bool
  | .callWrite _ => true
  | _ => false

/-- The handlers that can follow from a read: a body that has arrived is
dispatched, answered and followed by a read of the next header. -/
def effort (op : ReadOp) : ℕ := if op.handler = .onReadBody ∧ op.result = some 0 then 3 else 1

def left (s : Connection) : ℕ :=
  (s.reads.map effort).sum + s.writes.length + s.sendmsgqueue.length

section Effort
variable {abi : Abi} {s t : Connection} {e : Event} {op : ReadOp} {i : ℕ} {error : ErrorCode}
  {msg : Message} {reply : Option Message}

theorem effort_pos (op : ReadOp) : 1 ≤ effort op := by
  unfold effort
  split_ifs <;> omega

theorem effort_le (op : ReadOp) : effort op ≤ 3 := by
  unfold effort
  split_ifs <;> omega

theorem effort_abort (op : ReadOp) : effort op.abort = effort op := by
  cases hr : op.result with
  | none => simp [effort,ReadOp.abort,hr,operationAborted]
  | some e => simp [effort,ReadOp.abort,hr]

theorem left_close (s : Connection) : left s.close = left s := by
  have heffort : effort ∘ ReadOp.abort = effort := funext effort_abort
  simp only [left,Connection.close,List.map_map,heffort,List.length_map]

theorem left_onError (error : ErrorCode) (s : Connection) : left (s.onError error) = left s := by
  unfold Connection.onError
  split_ifs
  · rfl
  · exact left_close s

/-- A read whose handler runs is no longer counted. -/
theorem left_eraseRead (hop : s.reads[i]? = some op) :
    left {s with reads := s.reads.eraseIdx i} + effort op = left s := by
  obtain ⟨hlt,rfl⟩ := List.getElem?_eq_some_iff.mp hop
  have hperm := ((List.getElem_cons_eraseIdx_perm hlt).map effort).sum_eq
  rw [List.map_cons,List.sum_cons] at hperm
  simp only [left]
  omega

theorem left_eraseWrite (hi : i < s.writes.length) :
    left {s with writes := s.writes.eraseIdx i} + 1 = left s := by
  simp only [left,List.length_eraseIdx_of_lt hi]
  omega

theorem left_write (h : s.write abi msg = some t) : left t = left s + 1 := by
  simp only [Connection.write] at h
  split_ifs at h
  · obtain ⟨bytes,_,rfl⟩ := Option.map_eq_some_iff.mp h
    simp only [left,Connection.asyncWrite,List.length_append,List.length_singleton]
    omega
  · cases h
    simp only [left,List.length_append,List.length_singleton]
    omega

/-- The read of the next header. -/
theorem left_readHead (s : Connection) : left s.readHead = left s + 1 := by
  simp only [left,Connection.readHead,Connection.asyncRead,List.map_append,List.map_singleton,
    List.sum_append,List.sum_singleton,effort,if_neg (show ¬ (ReadHandler.onReadHead =
      ReadHandler.onReadBody ∧ _) from fun h => absurd h.1 (by decide))]
  omega

theorem left_onReadBody (h : s.onReadBody abi error reply = some t) :
    left t ≤ left s + if error = 0 then 2 else 0 := by
  unfold Connection.onReadBody at h
  split_ifs at h ⊢
  · cases reply with
    | none =>
        cases h
        rw [left_readHead]
        exact Nat.le_succ _
    | some msg =>
        obtain ⟨u,hu,rfl⟩ := Option.map_eq_some_iff.mp h
        rw [left_readHead,left_write hu]
        exact Nat.le_refl _
  · cases h
    exact (left_onError error s).le

/-- What waits in the queue is counted as well, so sending it adds nothing. -/
theorem left_onWrite (h : s.onWrite abi error = some t) : left t ≤ left s := by
  unfold Connection.onWrite at h
  split_ifs at h
  · split at h
    · cases h
      exact Nat.le_refl _
    · rename_i msg rest hq
      obtain ⟨bytes,_,rfl⟩ := Option.map_eq_some_iff.mp h
      simp only [left,Connection.asyncWrite,List.length_append,List.length_cons,List.length_nil,hq]
      omega
  · cases h
    have herror := left_onError error s
    simp only [left,List.length_nil] at herror ⊢
    omega

/-- On a closed socket each handler that runs uses some of what is left, and only
`Write` adds to it. -/
theorem left_step (ho : s.isOpen = false) (hs : step abi s e = some t) :
    left t + (handles e).toNat ≤ left s + (calls e).toNat := by
  cases e with
  | receive bytes =>
      cases hs
      exact Nat.le_refl _
  | readReady i =>
      obtain ⟨_,_,_,hopen,_⟩ := step_readReady.mp hs
      rw [ho] at hopen
      cases hopen
  | readFail i error =>
      obtain ⟨op,hop,hres,hne,rfl⟩ := step_readFail.mp hs
      have hsame : (s.reads.set i {op with result := some error}).map effort =
          s.reads.map effort := by
        apply map_set_same effort hop
        simp [effort,hres,hne]
      simp only [left,hsame]
      exact Nat.le_refl _
  | runRead i reply =>
      obtain ⟨op,error,hop,hres,⟨_,rfl⟩ | ⟨hh,hrun⟩⟩ := step_runRead.mp hs
      · have hclosed : Connection.onReadHead abi error {s with reads := s.reads.eraseIdx i} =
            {s with reads := s.reads.eraseIdx i} := onReadHead_closed ho
        have herase := left_eraseRead hop
        have hpos := effort_pos op
        rw [hclosed]
        change left _ + 1 ≤ left s + 0
        omega
      · have hbody := left_onReadBody hrun
        have herase := left_eraseRead hop
        have hpos := effort_pos op
        change left t + 1 ≤ left s + 0
        split_ifs at hbody with he
        · have hthree : effort op = 3 := if_pos ⟨hh,by rw [hres,he]⟩
          omega
        · omega
  | callWrite msg => exact (left_write hs).le
  | sendChunk i n =>
      obtain ⟨_,_,hopen,_⟩ := step_sendChunk.mp hs
      rw [ho] at hopen
      cases hopen
  | writeReady i =>
      obtain ⟨op,_,_,_,rfl⟩ := step_writeReady.mp hs
      simp only [left,List.length_set]
      exact Nat.le_refl _
  | writeFail i error =>
      obtain ⟨op,_,_,_,rfl⟩ := step_writeFail.mp hs
      simp only [left,List.length_set]
      exact Nat.le_refl _
  | runWrite i =>
      obtain ⟨op,error,hop,_,hrun⟩ := step_runWrite.mp hs
      have herase := left_eraseWrite (List.getElem?_eq_some_iff.mp hop).choose
      have hwrite := left_onWrite hrun
      change left t + 1 ≤ left s + 0
      omega
  | callStop =>
      cases hs
      exact (left_close s).le

end Effort

/-! ### The last handler -/

/-- Nothing waits in the queue, and on a closed socket every operation has its
result. -/
structure Settling (s : Connection) : Prop where
  queue : s.sendmsgqueue = []
  reads : s.isOpen = false → ∀ op ∈ s.reads, op.result ≠ none
  writes : s.isOpen = false → ∀ op ∈ s.writes, op.result ≠ none

section Settling
variable {abi : Abi} {s t : Connection} {e : Event} {error : ErrorCode} {msg : Message}
  {reply : Option Message}

theorem abort_result {α : Type*} (r : Option α) (a : α) : (r <|> some a) ≠ none := by
  cases r <;> simp

theorem Settling.close (h : Settling s) : Settling s.close := by
  refine ⟨h.queue,fun _ => ?_,fun _ => ?_⟩
  · exact List.forall_mem_map.mpr fun op _ => abort_result _ _
  · exact List.forall_mem_map.mpr fun op _ => abort_result _ _

theorem Settling.onError (h : Settling s) (error : ErrorCode) : Settling (s.onError error) := by
  unfold Connection.onError
  split_ifs
  · exact h
  · exact h.close

theorem Settling.asyncRead (h : Settling s) (k : ReadHandler) (off len : ℕ) :
    Settling (s.asyncRead k off len) := by
  refine ⟨h.queue,fun ho => ?_,h.writes⟩
  have hclosed : s.isOpen = false := ho
  exact forall_mem_concat (h.reads ho) (by simp [hclosed])

theorem Settling.asyncWrite (h : Settling s) (msg : Message) (bytes : Bytes)
    (bound : Option ErrorCode) : Settling (s.asyncWrite msg bytes bound) := by
  refine ⟨h.queue,h.reads,fun ho => ?_⟩
  have hclosed : s.isOpen = false := ho
  exact forall_mem_concat (h.writes ho) (by simp [hclosed])

theorem Settling.write (h : Settling s) (hw : s.write abi msg = some t) : Settling t := by
  simp only [Connection.write] at hw
  split_ifs at hw with hq
  · obtain ⟨bytes,_,rfl⟩ := Option.map_eq_some_iff.mp hw
    have hlogged : Settling {s with written := s.written ++ [msg]} := ⟨h.queue,h.reads,h.writes⟩
    exact hlogged.asyncWrite msg bytes none
  · exact absurd (List.isEmpty_iff.mpr h.queue) hq

theorem Settling.onReadHead (h : Settling s) (error : ErrorCode) :
    Settling (s.onReadHead abi error) := by
  have hmessage : ∀ m, Settling {s with message := m} := fun m => ⟨h.queue,h.reads,h.writes⟩
  unfold Connection.onReadHead
  split_ifs
  · exact h
  · split
    · exact (hmessage _).onError error
    · exact (hmessage _).asyncRead _ _ _
  · exact h.onError error

theorem Settling.onReadBody (h : Settling s) (hb : s.onReadBody abi error reply = some t) :
    Settling t := by
  unfold Connection.onReadBody at hb
  split_ifs at hb
  · have hlogged : Settling {s with dispatched := s.dispatched ++ [s.message]} :=
      ⟨h.queue,h.reads,h.writes⟩
    cases reply with
    | none =>
        cases hb
        exact hlogged.asyncRead _ _ _
    | some msg =>
        obtain ⟨u,hu,rfl⟩ := Option.map_eq_some_iff.mp hb
        exact (hlogged.write hu).asyncRead _ _ _
  · cases hb
    exact h.onError error

theorem Settling.onWrite (h : Settling s) (hw : s.onWrite abi error = some t) : Settling t := by
  unfold Connection.onWrite at hw
  split_ifs at hw
  · rw [h.queue] at hw
    cases hw
    exact h
  · cases hw
    have herror := h.onError error
    exact ⟨rfl,herror.reads,herror.writes⟩

theorem Settling.step (h : Settling s) (hs : ConnectionState.step abi s e = some t) :
    Settling t := by
  cases e with
  | receive bytes =>
      cases hs
      exact ⟨h.queue,h.reads,h.writes⟩
  | readReady i =>
      obtain ⟨op,buffer,_,_,_,_,_,rfl⟩ := step_readReady.mp hs
      exact ⟨h.queue,fun ho => forall_mem_set (h.reads ho) nofun,h.writes⟩
  | readFail i error =>
      obtain ⟨op,_,_,_,rfl⟩ := step_readFail.mp hs
      exact ⟨h.queue,fun ho => forall_mem_set (h.reads ho) nofun,h.writes⟩
  | runRead i reply =>
      have herase : Settling {s with reads := s.reads.eraseIdx i} :=
        ⟨h.queue,fun ho op hop => h.reads ho op (List.mem_of_mem_eraseIdx hop),h.writes⟩
      obtain ⟨op,error,_,_,⟨_,rfl⟩ | ⟨_,hrun⟩⟩ := step_runRead.mp hs
      · exact herase.onReadHead error
      · exact herase.onReadBody hrun
  | callWrite msg => exact h.write hs
  | sendChunk i n =>
      obtain ⟨op,hop,ho,_,_,_,rfl⟩ := step_sendChunk.mp hs
      exact ⟨h.queue,h.reads,fun hc => absurd (ho.symm.trans hc) nofun⟩
  | writeReady i =>
      obtain ⟨op,_,_,_,rfl⟩ := step_writeReady.mp hs
      exact ⟨h.queue,h.reads,fun ho => forall_mem_set (h.writes ho) nofun⟩
  | writeFail i error =>
      obtain ⟨op,_,_,_,rfl⟩ := step_writeFail.mp hs
      exact ⟨h.queue,h.reads,fun ho => forall_mem_set (h.writes ho) nofun⟩
  | runWrite i =>
      have herase : Settling {s with writes := s.writes.eraseIdx i} :=
        ⟨h.queue,h.reads,fun ho op hop => h.writes ho op (List.mem_of_mem_eraseIdx hop)⟩
      obtain ⟨op,error,_,_,hrun⟩ := step_runWrite.mp hs
      exact herase.onWrite hrun
  | callStop =>
      cases hs
      exact h.close

theorem run_settling {m : Message} {cb : Bool} {addr : String} {es : List Event}
    (h : exec (ConnectionState.step abi) (started m cb addr) es = some s) : Settling s := by
  have hstart : Settling (started m cb addr) := by
    refine ⟨rfl,?_,?_⟩
    · intro ho
      cases ho
    · intro ho
      cases ho
  apply exec_preserves (ConnectionState.step abi) (P := Settling) (fun _ _ _ hu hv => hu.step hv)
    hstart h

/-- The first operation of a closed connection can be finished. -/
theorem finish_step (abi : Abi) (h : Settling s) (ho : s.isOpen = false)
    (hne : s.reads ≠ [] ∨ s.writes ≠ []) :
    ∃ e t, handles e = true ∧ calls e = false ∧ ConnectionState.step abi s e = some t := by
  rcases hne with hne | hne
  · obtain ⟨op,ops,hops⟩ := List.exists_cons_of_ne_nil hne
    have hop : s.reads[0]? = some op := by rw [hops]; rfl
    obtain ⟨error,hres⟩ := Option.ne_none_iff_exists'.mp (h.reads ho op (List.mem_of_getElem? hop))
    cases hh : op.handler with
    | onReadHead =>
        exact ⟨.runRead 0 none,_,rfl,rfl,step_runRead.mpr ⟨op,error,hop,hres,Or.inl ⟨hh,rfl⟩⟩⟩
    | onReadBody =>
        have hrun : ∃ t, Connection.onReadBody abi error none
            {s with reads := s.reads.eraseIdx 0} = some t := by
          unfold Connection.onReadBody
          split_ifs <;> exact ⟨_,rfl⟩
        obtain ⟨t,ht⟩ := hrun
        exact ⟨.runRead 0 none,t,rfl,rfl,step_runRead.mpr ⟨op,error,hop,hres,Or.inr ⟨hh,ht⟩⟩⟩
  · obtain ⟨op,ops,hops⟩ := List.exists_cons_of_ne_nil hne
    have hop : s.writes[0]? = some op := by rw [hops]; rfl
    obtain ⟨error,hres⟩ := Option.ne_none_iff_exists'.mp (h.writes ho op (List.mem_of_getElem? hop))
    have hrun : ∃ t, Connection.onWrite abi (op.bound.getD error)
        {s with writes := s.writes.eraseIdx 0} = some t := by
      simp only [Connection.onWrite,h.queue]
      split_ifs <;> exact ⟨_,rfl⟩
    obtain ⟨t,ht⟩ := hrun
    exact ⟨.runWrite 0,t,rfl,rfl,step_runWrite.mpr ⟨op,error,hop,hres,ht⟩⟩

/-- Handlers alone lead to a state without operations. -/
theorem winds_down (h : Settling s) (ho : s.isOpen = false) : ∃ fs t,
    (∀ f ∈ fs, handles f = true) ∧ exec (ConnectionState.step abi) s fs = some t ∧
      t.reads = [] ∧ t.writes = [] := by
  induction hn : left s using Nat.strong_induction_on generalizing s with
  | _ n ih =>
      by_cases hne : s.reads ≠ [] ∨ s.writes ≠ []
      · obtain ⟨e,u,he,hcalls,hu⟩ := finish_step abi h ho hne
        have hless := left_step ho hu
        rw [he,hcalls] at hless
        change left u + 1 ≤ left s + 0 at hless
        obtain ⟨fs,t,hfs,hrun,hend⟩ := ih (left u) (by omega) (h.step hu) (closed_stays ho hu) rfl
        refine ⟨e :: fs,t,?_,(exec_cons_eq_some _).mpr ⟨u,hu,hrun⟩,hend⟩
        exact List.forall_mem_cons.mpr ⟨he,hfs⟩
      · rw [not_or,not_not,not_not] at hne
        exact ⟨[],s,nofun,rfl,hne⟩

/-- A started connection has one read outstanding at most. -/
theorem left_le (hinv : ReadInv abi (view s)) (h : Settling s) :
    left s ≤ 3 + s.writes.length := by
  have hreads : (s.reads.map effort).sum ≤ 3 := by
    have hone : s.reads = [] ∨ ∃ op, s.reads = [op] := by
      cases hinv.phase with
      | head r hr reads received => exact Or.inr ⟨_,reads⟩
      | headDone reads received => exact Or.inr ⟨_,reads⟩
      | body r hr reads parsed accepted received => exact Or.inr ⟨_,reads⟩
      | bodyDone reads parsed fits received => exact Or.inr ⟨_,reads⟩
      | refused isOpen reads refused received => exact Or.inl reads
      | ended isOpen reads => exact Or.inl reads
    rcases hone with hnil | ⟨op,hop⟩
    · rw [hnil]
      exact Nat.zero_le 3
    · rw [hop,List.map_singleton,List.sum_singleton]
      exact effort_le op
  rw [left,h.queue,List.length_nil]
  omega

end Settling

/-- However a started connection came to be closed: from then on at most three
handlers run besides those of the writes outstanding and of the messages still
passed to `Write`, and there are handlers left to run until no operation is. -/
theorem handlers_after_close (abi : Abi) (m : Message) (cb : Bool) (addr : String)
    (es fs : List Event) (s t : Connection)
    (hrun : exec (step abi) (started m cb addr) es = some s) (ho : s.isOpen = false)
    (hafter : exec (step abi) s fs = some t) :
    fs.countP handles ≤ 3 + s.writes.length + fs.countP calls ∧
      ∃ gs u, (∀ g ∈ gs, handles g = true) ∧ exec (step abi) t gs = some u ∧
        u.reads = [] ∧ u.writes = [] := by
  have hsettling := run_settling hrun
  have hclosed : t.isOpen = false := by
    apply exec_preserves (step abi) (P := fun s => s.isOpen = false)
      (fun _ _ _ hu hv => closed_stays hu hv) ho hafter
  constructor
  · have hbudget : left t + fs.countP handles ≤ left s + fs.countP calls :=
      exec_budget (step abi) (P := fun s => s.isOpen = false)
        (fun _ _ _ hu hv => ⟨closed_stays hu hv,left_step hu hv⟩) ho hafter
    have hleft := left_le (run_inv hrun) hsettling
    omega
  · have hend : Settling t := run_settling ((exec_append_eq_some _).mpr ⟨s,hrun,hafter⟩)
    exact winds_down hend hclosed

/-- A body that was read before a write failed is dispatched and answered. -/
def answeredAfterClose : List Event := [.runRead 0 (some (sample 2)),.runWrite 0,.runRead 0 none]

theorem handlers_after_close_body :
    ∃ s ∈ exec (step (lp64 .little)) (started .empty true "") closedWithBody,
      ∃ t ∈ exec (step (lp64 .little)) s answeredAfterClose,
        answeredAfterClose.countP handles = 3 ∧
        answeredAfterClose.countP handles ≤
          3 + s.writes.length + answeredAfterClose.countP calls := by
  have hrun : ∃ s ∈ exec (step (lp64 .little)) (started .empty true "") closedWithBody,
      s.isOpen = false ∧ ∃ t ∈ exec (step (lp64 .little)) s answeredAfterClose, t.reads = [] := by
    decide
  obtain ⟨s,hs,ho,t,ht,_⟩ := hrun
  exact ⟨s,hs,t,ht,rfl,(handlers_after_close _ _ _ _ _ _ s t hs ho ht).1⟩

end SindiaRpc.ClosingDown
