import SindiaRpc.ConnectionHistories
import SindiaRpc.ReadGuards
import SindiaRpc.MatchedLists
import SindiaRpc.WriteSteps

/-!
# Where a message passed to `Write` is

`Write` and `OnWrite` make an outbox of the connection: `m_sendmsgqueue` holds
what waits, and each `async_write` that is outstanding will complete once. The
operations that `OnWrite` itself starts complete with the success it was called
with, so only the failure of one started by `Write` is seen.
-/
namespace SindiaRpc.WriteQueue
open MessageFrames ConnectionState ConnectionWrites ConnectionHistories GuardedRuns ReadGuards
  ListUpdates WriteSteps

def outbox (s : Connection) : Outbox Message where
  accepted := s.written
  started := s.transmitted
  waiting := s.sendmsgqueue
  dropped := s.dropped
  active := s.writes.length

/-! ### Operations -/

/-- One `async_write` was started for each message handed to it. Of these
operations `n` have completed, and each of the others has some rest of the frame
of its message to send. -/
structure Handed (abi : Abi) (n : ℕ) (w : WriteSide) : Prop where
  started : w.transmitted.length = n + w.writes.length
  sends : ∃ ms, ms.Sublist w.transmitted ∧
    List.Forall₂ (fun m op => op.unsent <:+ m.frame abi) ms w.writes

section Operations
variable {abi : Abi} {w w' : WriteSide} {done : Bool} {n i : ℕ}

/-- What is left when an operation has completed, closed or not. -/
theorem Handed.erase (h : Handed abi n w) (hi : i < w.writes.length)
    (ht : w'.transmitted = w.transmitted) (hops : w'.writes = w.writes.eraseIdx i ∨
      w'.writes = (w.writes.eraseIdx i).map WriteOp.abort) : Handed abi (n + 1) w' := by
  obtain ⟨ms,hsub,hms⟩ := h.sends
  obtain ⟨rest,hrest,hmatch⟩ := MatchedLists.sublist_left hms (List.eraseIdx_sublist w.writes i)
  have hstarted := h.started
  have herase := List.length_eraseIdx_of_lt hi
  rcases hops with hops | hops
  · refine ⟨?_,rest,ht ▸ hrest.trans hsub,hops ▸ hmatch⟩
    rw [ht,hops]
    omega
  · refine ⟨?_,rest,ht ▸ hrest.trans hsub,hops ▸ List.forall₂_map_right_iff.mpr hmatch⟩
    rw [ht,hops,List.length_map]
    omega

theorem Handed.move (h : Handed abi n w) (hq : w.sendmsgqueue = [])
    (hs : WriteStep abi w done w') : Handed abi (n + done.toNat) w' := by
  obtain ⟨ms,hsub,hms⟩ := h.sends
  cases hs with
  | same => exact h
  | close =>
      refine ⟨?_,ms,hsub,List.forall₂_map_right_iff.mpr hms⟩
      rw [WriteSide.close,List.length_map]
      exact h.started
  | write msg _ =>
      refine ⟨?_,ms ++ [msg],hsub.append_right _,List.rel_append hms (.cons List.suffix_rfl .nil)⟩
      have hstarted := h.started
      simp only [WriteSide.asyncWrite,List.length_append,List.length_singleton,Bool.toNat_false]
      omega
  | queue msg hne => exact absurd hq hne
  | progress i op op' hop hbound hrest =>
      refine ⟨?_,ms,hsub,MatchedLists.set_right hms hop fun _ hleft => hrest.trans hleft⟩
      rw [List.length_set]
      exact h.started
  | finish i hi _ => exact h.erase hi rfl (Or.inl rfl)
  | next i msg rest bytes hi hcons =>
      rw [hq] at hcons
      cases hcons
  | fail i hi => exact h.erase hi rfl (Or.inr rfl)

end Operations

/-! ### The place of each message -/

/-- What the events of a run pass to `Write`. -/
def passed (abi : Abi) (s : Connection) (es : List Event) : List Message :=
  collect (step abi) (fun s e => (writing s e).toList) s es

/-- What the failed completions of a run drop from the queue. -/
def cleared (abi : Abi) (s : Connection) (es : List Event) : List Message :=
  collect (step abi) clearing s es

/-- Every message passed to `Write` from `s` to `t` was handed to one
`async_write`, waits in the queue or was dropped from it, and a write is
outstanding where one waits. -/
structure Accounted (abi : Abi) (s : Connection) (es : List Event) (t : Connection) : Prop where
  placed : (passed abi s es).Perm (t.transmitted ++ (t.sendmsgqueue ++ cleared abi s es))
  handed : Handed abi (es.countP completes) (writeSide t)
  served : t.sendmsgqueue ≠ [] → t.writes ≠ []
  drains : ∀ i u, step abi t (.runWrite i) = some u →
    u.sendmsgqueue = t.sendmsgqueue.tail ∨ u.sendmsgqueue = []

section Places
variable {abi : Abi} {s t : Connection} {e : Event} {es : List Event}

theorem step_move (hs : step abi s e = some t) : (outbox s).Move (outbox t) :=
  (step_writeSide hs).move

theorem queue_runWrite {i : ℕ} (hs : step abi s (.runWrite i) = some t) :
    t.sendmsgqueue = s.sendmsgqueue.tail ∨ t.sendmsgqueue = [] :=
  WriteStep.drains (step_writeSide hs)

theorem unwritten_sound (h : Unwritten s) (ht : s.transmitted = []) (hd : s.dropped = []) :
    (outbox s).Sound := by
  constructor
  · simp [outbox,h.written,h.queue,ht,hd]
  · exact fun hne => absurd h.queue hne

theorem sound_step (h : (outbox s).Sound) (hs : step abi s e = some t) : (outbox t).Sound :=
  (step_move hs).sound h

/-- The queue is never used: it would have to be nonempty first. -/
theorem queue_step (h : s.sendmsgqueue = []) (hs : step abi s e = some t) : t.sendmsgqueue = [] :=
  (step_move hs).waiting_nil h

theorem handed_run {n : ℕ} (h : Handed abi n (writeSide s)) (hq : s.sendmsgqueue = [])
    (hrun : exec (step abi) s es = some t) :
    Handed abi (n + es.countP completes) (writeSide t) := by
  induction es generalizing s n with
  | nil =>
      cases hrun
      exact h
  | cons e es ih =>
      obtain ⟨u,hu,hrest⟩ := (exec_cons_eq_some _).mp hrun
      have hmore := ih (h.move hq (step_writeSide hu)) (queue_step hq hu) hrest
      rwa [countP_cons_toNat,Nat.add_comm _ (completes e).toNat,← Nat.add_assoc]

theorem passed_run (hrun : exec (step abi) s es = some t) :
    t.written = s.written ++ passed abi s es :=
  exec_collect (step abi) (fun _ _ _ hs => congrArg Histories.written (step_histories hs)) hrun

theorem cleared_run (hrun : exec (step abi) s es = some t) :
    t.dropped = s.dropped ++ cleared abi s es :=
  exec_collect (step abi) (fun _ _ _ hs => congrArg Histories.dropped (step_histories hs)) hrun

end Places

/-- From a connection that nothing was written on, whatever is written and
however the writes end, each message is in exactly one place. -/
theorem messages_accounted (abi : Abi) (s : Connection) (hs : Unwritten s)
    (ht : s.transmitted = []) (hd : s.dropped = []) (es : List Event) (t : Connection)
    (hrun : exec (step abi) s es = some t) : Accounted abi s es t := by
  have hsound : (outbox t).Sound :=
    exec_preserves (step abi) (P := fun s => (outbox s).Sound)
      (fun _ _ _ h hstep => sound_step h hstep) (unwritten_sound hs ht hd) hrun
  have hwritten := passed_run hrun
  have hdropped := cleared_run hrun
  rw [hs.written,List.nil_append] at hwritten
  rw [hd,List.nil_append] at hdropped
  constructor
  · rw [← hwritten,← hdropped]
    exact hsound.placed
  · have hstart : Handed abi 0 (writeSide s) := by
      simp only [writeSide,ht,hs.writes]
      exact ⟨rfl,[],List.nil_sublist _,.nil⟩
    simpa using handed_run hstart hs.queue hrun
  · exact fun hq => List.ne_nil_of_length_pos (hsound.served hq)
  · exact fun _ _ => queue_runWrite

/-- Of two writes that overlap the first has completed. -/
theorem messages_accounted_overlapping :
    ∃ t ∈ exec (step (lp64 .little)) (started .empty true "")
        (overlappingRun ++ [.writeReady 0,.runWrite 0]), t.writes.length = 1 ∧
      Accounted (lp64 .little) (started .empty true "")
        (overlappingRun ++ [.writeReady 0,.runWrite 0]) t := by
  have hrun : ∃ t ∈ exec (step (lp64 .little)) (started .empty true "")
      (overlappingRun ++ [.writeReady 0,.runWrite 0]), t.writes.length = 1 := by decide
  obtain ⟨t,ht,hlen⟩ := hrun
  exact ⟨t,ht,hlen,messages_accounted _ _ (started_unwritten _ _ _) rfl rfl _ t ht⟩

/-! ### Failed writes -/

/-- The connection was closed, its queue emptied, and whatever is handed to
`async_write` from here on is passed to `Write` first. -/
structure Ended (abi : Abi) (s t : Connection) : Prop where
  closed : t.isOpen = false ∧ t.closes = s.closes + 1
  emptied : t.sendmsgqueue = []
  unsent : ∀ es u, exec (step abi) t es = some u → ∃ xs ws,
    u.transmitted = s.transmitted ++ xs ∧ u.written = s.written ++ ws ∧ xs.Sublist ws

/-- The completion of a failed write ends the connection. -/
def FailureEnds (abi : Abi) (s : Connection) : Event → Prop
  | .runWrite i => ∀ op ∈ s.writes[i]?, ∀ e ∈ op.result, e ≠ 0 →
      ∃ t, step abi s (.runWrite i) = some t ∧ Ended abi s t
  | _ => True

/-- A write that failed was started by `Write`, not by `OnWrite`. -/
def ByWrite (s : Connection) : Event → Prop
  | .runWrite i => ∀ op ∈ s.writes[i]?, ∀ e ∈ op.result, e ≠ 0 → op.bound = none
  | _ => True

/-- Handlers are bound to their own result, or to the success of the completion
that started their operation. -/
def Bound (s : Connection) : Prop := ∀ op ∈ s.writes, op.bound = none ∨ op.bound = some 0

section Failures
variable {abi : Abi} {s t u : Connection} {e : Event} {es : List Event} {i : ℕ} {op : WriteOp}
  {error : ErrorCode}

theorem run_since {b : Outbox Message} {xs ws : List Message} (h : b.Since (outbox s) xs ws)
    (hrun : exec (step abi) s es = some t) : ∃ xs ws, b.Since (outbox t) xs ws := by
  apply exec_preserves (step abi) (P := fun s => ∃ xs ws, b.Since (outbox s) xs ws) ?_ ⟨xs,ws,h⟩ hrun
  intro s e t hs hstep
  obtain ⟨xs,ws,hsince⟩ := hs
  exact hsince.move (step_move hstep)

/-- A completion that is told of the failure. -/
theorem ended_of_failure (hop : s.writes[i]? = some op) (hres : op.result = some error)
    (herror : op.bound.getD error ≠ 0) : ∃ t, step abi s (.runWrite i) = some t ∧ Ended abi s t := by
  have hrun : ∃ t, Connection.onWrite abi (op.bound.getD error)
      {s with writes := s.writes.eraseIdx i} = some t := by
    rw [Connection.onWrite,if_neg herror]
    exact ⟨_,rfl⟩
  obtain ⟨t,ht⟩ := hrun
  refine ⟨t,step_runWrite.mpr ⟨op,error,hop,hres,ht⟩,?_⟩
  have hnotice := (notice_onWrite ht).trans (if_neg herror)
  rw [Connection.onWrite,if_neg herror,Connection.onError,if_neg herror] at ht
  cases ht
  refine ⟨⟨congrArg Notice.isOpen hnotice,congrArg Notice.closes hnotice⟩,rfl,?_⟩
  intro es u hu
  obtain ⟨xs,ws,hsince⟩ := run_since (Outbox.Since.refl _) hu
  exact ⟨xs,ws,hsince.started,hsince.accepted,
    (List.sublist_append_left xs _).trans (by simpa [outbox] using hsince.from_waiting)⟩

/-- A completion that is told of an earlier success does not close. -/
theorem not_ended (hop : s.writes[i]? = some op) (hbound : op.bound = some 0)
    (hs : step abi s (.runWrite i) = some t) : ¬ Ended abi s t := by
  intro hended
  obtain ⟨op',error',hop',hres',hrun⟩ := step_runWrite.mp hs
  obtain rfl := Option.some.inj (hop.symm.trans hop')
  rw [hbound] at hrun
  have hnotice := (notice_onWrite hrun).trans (if_pos rfl)
  have hcloses : t.closes = s.closes := congrArg Notice.closes hnotice
  have hclosed := hended.closed.2
  omega

theorem failureEnds_iff (h : Bound s) : FailureEnds abi s e ↔ ByWrite s e := by
  cases e with
  | runWrite i =>
      constructor
      · intro hends op hop error hres herror
        obtain ⟨t,hs,hended⟩ := hends op hop error hres herror
        rcases h op (List.mem_of_getElem? hop) with hnone | hzero
        · exact hnone
        · exact absurd hended (not_ended hop hzero hs)
      · intro hby op hop error hres herror
        apply ended_of_failure hop hres
        rw [hby op hop error hres herror]
        exact herror
  | receive _ | readReady _ | readFail _ _ | runRead _ _ | callWrite _ | sendChunk _ _
  | writeReady _ | writeFail _ _ | callStop => exact Iff.rfl

theorem Bound.step (h : Bound s) (hs : ConnectionState.step abi s e = some t) : Bound t :=
  (step_writeSide hs).bound h

end Failures

/-- Whatever the queue holds, in every run each failed write ends the
connection exactly if none of those that fail was started by `OnWrite`. -/
theorem failure_ends_iff (abi : Abi) (s : Connection) (hs : Bound s) (es : List Event) :
    AllSteps (step abi) (FailureEnds abi) s es ↔ AllSteps (step abi) ByWrite s es := by
  apply allSteps_congr (I := Bound) ?_ ?_ hs
  · exact fun _ _ _ h hstep => h.step hstep
  · exact fun _ _ h => failureEnds_iff h

/-- One write outstanding and one message queued. -/
def draining : Connection :=
  {started .empty true "" with sendmsgqueue := [sample 1], writes := [⟨[],none,none⟩]}

theorem failure_ends_iff_first : AllSteps (step (lp64 .little)) (FailureEnds (lp64 .little)) draining
      [.writeFail 0 32,.runWrite 0] ↔
    AllSteps (step (lp64 .little)) ByWrite draining [.writeFail 0 32,.runWrite 0] :=
  failure_ends_iff _ draining (by simp [Bound,draining]) _

/-- The queued message is sent by the first completion; its failure is taken
for that completion's success. -/
theorem drained_failure_unseen : ¬ ∀ (s : Connection) (es : List Event), Bound s →
    AllSteps (step (lp64 .little)) (FailureEnds (lp64 .little)) s es := by
  intro h
  have hall := h draining [.writeReady 0,.runWrite 0,.writeFail 0 32,.runWrite 0]
    (by simp [Bound,draining])
  have hrun : ∃ s ∈ step (lp64 .little) draining (.writeReady 0),
      ∃ t ∈ step (lp64 .little) s (.runWrite 0), ∃ u ∈ step (lp64 .little) t (.writeFail 0 32),
      ∃ op ∈ u.writes[0]?, op.result = some 32 ∧
      ∃ v ∈ step (lp64 .little) u (.runWrite 0), v.closes = u.closes := by decide
  obtain ⟨s,hs,t,ht,u,hu,op,hop,hres,v,hv,hcloses⟩ := hrun
  obtain ⟨w,hw,hended⟩ := (((hall.2 s hs).2 t ht).2 u hu).1 op hop 32 hres (by decide)
  obtain rfl := Option.some.inj (hv.symm.trans hw)
  have hclosed := hended.closed.2
  omega

end SindiaRpc.WriteQueue
