import SindiaRpc.ReadGuards

/-!
# What happens on a closed socket

`OnReadHead` looks whether the socket is still open; `OnReadBody` and `OnWrite`
do not, and `Stop` closes in any case. So `Close` runs again, and calls its
callback again, for every error and every `Stop` that comes after it, and a body
whose read was complete when the socket was closed is still dispatched.
-/
namespace SindiaRpc.ClosedConnections
open MessageFrames ConnectionState GuardedRuns ReadGuards ListUpdates

/-- The step runs `OnReadBody` for a body that has been read. -/
def BodyArrives (s : Connection) : Event → Prop
  | .runRead i _ => ∃ op ∈ s.reads[i]?, op.handler = .onReadBody ∧ op.result = some 0
  | _ => False

instance (s : Connection) : ∀ e, Decidable (BodyArrives s e)
  | .runRead _ _ => inferInstanceAs (Decidable (∃ op ∈ _, _))
  | .receive _ | .readReady _ | .readFail _ _ | .callWrite _ | .sendChunk _ _ | .writeReady _
  | .writeFail _ _ | .runWrite _ | .callStop => inferInstanceAs (Decidable False)

section Closed
variable {abi : Abi} {s t : Connection} {e : Event} {error : ErrorCode}

theorem onReadHead_closed (ho : s.isOpen = false) : s.onReadHead abi error = s := by
  simp [Connection.onReadHead,ho]

/-- On a closed socket nothing but these steps calls `Close`. -/
theorem step_closed (ho : s.isOpen = false) (hs : step abi s e = some t) (hc : ¬ Closing s e) :
    notice t = notice s := by
  rcases step_notice hs with hn | ⟨_,hopen | hclosing⟩
  · exact hn
  · rw [ho] at hopen
    cases hopen
  · exact absurd hclosing hc

/-- Each of these steps can be taken, and closes. -/
theorem closing_step (hc : Closing s e) :
    ∃ t, step abi s e = some t ∧ notice t = (notice s).close := by
  cases e with
  | runRead i reply =>
      obtain ⟨op,hop,hbody,error,hres,he⟩ := hc
      have hrun : Connection.onReadBody abi error reply {s with reads := s.reads.eraseIdx i} =
          some (Connection.onError error {s with reads := s.reads.eraseIdx i}) := by
        rw [Connection.onReadBody,if_neg he]
      refine ⟨_,step_runRead.mpr ⟨op,error,hop,hres,Or.inr ⟨hbody,hrun⟩⟩,?_⟩
      exact (notice_onReadBody hrun).trans (if_neg he)
  | runWrite i =>
      obtain ⟨op,hop,error,hres,he⟩ := hc
      have hrun : ∃ t, Connection.onWrite abi (op.bound.getD error)
          {s with writes := s.writes.eraseIdx i} = some t := by
        rw [Connection.onWrite,if_neg he]
        exact ⟨_,rfl⟩
      obtain ⟨t,ht⟩ := hrun
      exact ⟨t,step_runWrite.mpr ⟨op,error,hop,hres,ht⟩,(notice_onWrite ht).trans (if_neg he)⟩
  | callStop => exact ⟨s.stop,rfl,rfl⟩
  | receive _ | readReady _ | readFail _ _ | callWrite _ | sendChunk _ _ | writeReady _
  | writeFail _ _ => exact hc.elim

end Closed

/-! ### The callback -/

/-- Close callbacks so far: none on an open socket. -/
structure Once (s : Connection) : Prop where
  before : s.isOpen = true → s.closecbCalls = 0
  after : s.isOpen = false → s.closecbCalls = s.closecb.toNat

/-- A step that closes finds the socket open, or no callback set. -/
def Fresh (s : Connection) (e : Event) : Prop :=
  s.isOpen = false → s.closecb = true → ¬ Closing s e

section Callback
variable {abi : Abi} {s t : Connection} {e : Event}

theorem calls_close (n : Notice) : n.close.closecbCalls = n.closecbCalls + n.closecb.toNat := by
  cases hcb : n.closecb <;> simp [Notice.close,hcb]

theorem fields_of_close (hn : notice t = (notice s).close) : t.isOpen = false ∧
    t.closecb = s.closecb ∧ t.closecbCalls = s.closecbCalls + s.closecb.toNat :=
  ⟨congrArg Notice.isOpen hn,congrArg Notice.closecb hn,
    (congrArg Notice.closecbCalls hn).trans (calls_close _)⟩

theorem Once.le_one (h : Once s) : s.closecbCalls ≤ 1 := by
  cases ho : s.isOpen with
  | true =>
      rw [h.before ho]
      exact Nat.zero_le 1
  | false =>
      rw [h.after ho]
      exact Bool.toNat_le _

theorem Once.uncalled (h : Once s) (hnone : s.closecb = false) : s.closecbCalls = 0 := by
  cases ho : s.isOpen with
  | true => exact h.before ho
  | false => rw [h.after ho,hnone,Bool.toNat_false]

theorem Once.step (h : Once s) (he : Fresh s e) (hs : ConnectionState.step abi s e = some t) :
    Once t := by
  have hcases : notice t = notice s ∨ notice t = (notice s).close ∧ s.closecbCalls = 0 := by
    rcases step_notice hs with hn | ⟨hn,_⟩
    · exact Or.inl hn
    · cases ho : s.isOpen with
      | true => exact Or.inr ⟨hn,h.before ho⟩
      | false =>
          cases hcb : s.closecb with
          | true => exact Or.inl (step_closed ho hs (he ho hcb))
          | false => exact Or.inr ⟨hn,h.uncalled hcb⟩
  rcases hcases with hn | ⟨hn,hzero⟩
  · simp only [notice,Notice.mk.injEq] at hn
    obtain ⟨ho,hcb,_,hcalls⟩ := hn
    constructor
    · rw [ho,hcalls]
      exact h.before
    · rw [ho,hcb,hcalls]
      exact h.after
  · obtain ⟨ho,hcb,hcalls⟩ := fields_of_close hn
    constructor
    · intro hopen
      rw [ho] at hopen
      cases hopen
    · intro _
      rw [hcalls,hcb,hzero,Nat.zero_add]

/-- A step that closes the socket again calls the callback again. -/
theorem Once.again (h : Once s) (he : ¬ Fresh s e) :
    ∃ t, ConnectionState.step abi s e = some t ∧ ¬ t.closecbCalls ≤ 1 := by
  simp only [Fresh,not_forall,not_not] at he
  obtain ⟨ho,hcb,hc⟩ := he
  obtain ⟨t,ht,hn⟩ : ∃ t, ConnectionState.step abi s e = some t ∧ notice t = (notice s).close :=
    closing_step hc
  refine ⟨t,ht,?_⟩
  rw [(fields_of_close hn).2.2,h.after ho,hcb]
  decide

end Callback

/-- In every run of a started connection, the close callback is called at most
once exactly if nothing closes the socket after it has been closed. -/
theorem callback_once_iff (abi : Abi) (m : Message) (cb : Bool) (addr : String)
    (es : List Event) :
    AllStates (step abi) (fun s => s.closecbCalls ≤ 1) (started m cb addr) es ↔
      AllSteps (step abi) Fresh (started m cb addr) es := by
  apply allStates_iff_allSteps (I := Once) (fun _ h => h.le_one) (fun _ _ _ h he hs => h.step he hs)
    (fun _ _ h he => h.again he)
  exact ⟨fun _ => rfl,nofun⟩

/-- The peer closes while a write is outstanding: both its failure and that of
the body read close the connection. -/
theorem callback_twice :
    ¬ ∀ es : List Event, AllStates (step (lp64 .little)) (fun s => s.closecbCalls ≤ 1)
      (started .empty true "") es := by
  intro h
  have hrun : ∃ s ∈ exec (step (lp64 .little)) (started .empty true "")
      [.receive (Header.image .little {type := 1, length := 5}),.readReady 0,.runRead 0 none,
        .callWrite (sample 1),.readFail 0 2,.writeFail 0 32,.runWrite 0,.runRead 0 none],
      ¬ s.closecbCalls ≤ 1 := by decide
  obtain ⟨s,hs,hcalls⟩ := hrun
  exact hcalls ((h _).last hs)

/-! ### Dispatches, reads and replies -/

/-- What an event passes to `Write` for a caller. -/
def callerWrite : Event → Option Message
  | .callWrite msg => some msg
  | _ => none

/-- The handler of a read runs. -/
def endsRead : Event → Bool
  | .runRead _ _ => true
  | _ => false

/-- The reads in progress or queued, whatever their results. -/
def ranges (s : Connection) : List (ReadHandler × ℕ × ℕ) :=
  s.reads.map fun op => (op.handler,op.offset,op.length)

/-- From `u` to `s` nothing was dispatched, the handlers of `n` reads ran and no
read was issued, and no message but `ws` was passed to `Write`. -/
structure Silenced (u s : Connection) (n : ℕ) (ws : List Message) : Prop where
  dispatched : s.dispatched = u.dispatched
  reads : (ranges s).Sublist (ranges u)
  unissued : s.reads.length + n = u.reads.length
  written : s.written = u.written ++ ws

namespace Silenced
variable {u s t : Connection} {n k : ℕ} {ws vs : List Message}

theorem of_same (hdispatched : t.dispatched = s.dispatched) (hreads : t.reads = s.reads)
    (hwritten : t.written = s.written) : Silenced s t 0 [] := by
  refine ⟨hdispatched,?_,?_,?_⟩
  · rw [ranges,ranges,hreads]
  · rw [hreads,Nat.add_zero]
  · rw [hwritten,List.append_nil]

theorem trans (h : Silenced u s n ws) (h' : Silenced s t k vs) :
    Silenced u t (n + k) (ws ++ vs) := by
  refine ⟨h'.dispatched.trans h.dispatched,h'.reads.trans h.reads,?_,?_⟩
  · have hfirst := h.unissued
    have hsecond := h'.unissued
    omega
  · rw [h'.written,h.written,List.append_assoc]

theorem close (s : Connection) : Silenced s s.close 0 [] := by
  refine ⟨rfl,?_,?_,(List.append_nil _).symm⟩
  · simp only [ranges,Connection.close,List.map_map]
    exact List.Sublist.refl _
  · rw [Connection.close,List.length_map,Nat.add_zero]

theorem onError (s : Connection) (error : ErrorCode) : Silenced s (s.onError error) 0 [] := by
  unfold Connection.onError
  split_ifs
  · exact of_same rfl rfl rfl
  · exact close s

/-- A read whose completion is taken from the queue. -/
theorem eraseIdx {i : ℕ} {op : ReadOp} (hop : s.reads[i]? = some op) :
    Silenced s {s with reads := s.reads.eraseIdx i} 1 [] := by
  have hlt : i < s.reads.length := (List.getElem?_eq_some_iff.mp hop).choose
  refine ⟨rfl,(List.eraseIdx_sublist s.reads i).map _,?_,(List.append_nil _).symm⟩
  rw [List.length_eraseIdx_of_lt hlt]
  omega

end Silenced

section After
variable {abi : Abi} {u s t : Connection} {e : Event} {es : List Event} {error : ErrorCode}
  {msg : Message}

theorem silenced_onWrite (h : s.onWrite abi error = some t) : Silenced s t 0 [] := by
  unfold Connection.onWrite at h
  split_ifs at h
  · split at h
    · cases h
      exact .of_same rfl rfl rfl
    · obtain ⟨bytes,_,rfl⟩ := Option.map_eq_some_iff.mp h
      exact .of_same rfl rfl rfl
  · cases h
    obtain ⟨hdispatched,hreads,hunissued,hwritten⟩ := Silenced.onError s error
    exact ⟨hdispatched,hreads,hunissued,hwritten⟩

theorem silenced_write (h : s.write abi msg = some t) : Silenced s t 0 [msg] := by
  simp only [Connection.write] at h
  split_ifs at h
  · obtain ⟨bytes,_,rfl⟩ := Option.map_eq_some_iff.mp h
    exact ⟨rfl,List.Sublist.refl _,rfl,rfl⟩
  · cases h
    exact ⟨rfl,List.Sublist.refl _,rfl,rfl⟩

theorem closed_stays (ho : s.isOpen = false) (hs : step abi s e = some t) : t.isOpen = false := by
  rcases step_notice hs with hn | ⟨hn,_⟩
  · exact (congrArg Notice.isOpen hn).trans ho
  · exact congrArg Notice.isOpen hn

/-- A step on a closed socket, no body arriving. -/
theorem silenced_step (ho : s.isOpen = false) (hs : step abi s e = some t)
    (hbody : ¬ BodyArrives s e) : Silenced s t (endsRead e).toNat (callerWrite e).toList := by
  cases e with
  | receive bytes =>
      cases hs
      exact .of_same rfl rfl rfl
  | readReady i =>
      obtain ⟨_,_,_,hopen,_⟩ := step_readReady.mp hs
      rw [ho] at hopen
      cases hopen
  | readFail i error =>
      obtain ⟨op,hop,_,_,rfl⟩ := step_readFail.mp hs
      refine ⟨rfl,?_,List.length_set,(List.append_nil _).symm⟩
      have hsame : (s.reads.set i {op with result := some error}).map
          (fun op => (op.handler,op.offset,op.length)) = ranges s := map_set_same _ hop rfl
      rw [ranges,hsame]
  | runRead i reply =>
      obtain ⟨op,error,hop,hres,⟨_,rfl⟩ | ⟨hh,hrun⟩⟩ := step_runRead.mp hs
      · rw [onReadHead_closed]
        · exact .eraseIdx hop
        · exact ho
      · by_cases he : error = 0
        · exact absurd ⟨op,hop,hh,by rw [hres,he]⟩ hbody
        · rw [Connection.onReadBody,if_neg he] at hrun
          cases hrun
          exact (Silenced.eraseIdx hop).trans (.onError _ error)
  | callWrite msg => exact silenced_write hs
  | sendChunk i n =>
      obtain ⟨_,_,hopen,_⟩ := step_sendChunk.mp hs
      rw [ho] at hopen
      cases hopen
  | writeReady i =>
      obtain ⟨op,_,_,_,rfl⟩ := step_writeReady.mp hs
      exact .of_same rfl rfl rfl
  | writeFail i error =>
      obtain ⟨op,_,_,_,rfl⟩ := step_writeFail.mp hs
      exact .of_same rfl rfl rfl
  | runWrite i =>
      obtain ⟨op,error,_,_,hrun⟩ := step_runWrite.mp hs
      obtain ⟨hdispatched,hreads,hunissued,hwritten⟩ := silenced_onWrite hrun
      exact ⟨hdispatched,hreads,hunissued,hwritten⟩
  | callStop =>
      cases hs
      exact .close s

/-- A body that arrives is dispatched. -/
theorem dispatched_step (hs : step abi s e = some t) (hbody : BodyArrives s e) :
    t.dispatched = s.dispatched ++ [s.message] := by
  cases e with
  | runRead i reply =>
      obtain ⟨op,hop,hh,hres⟩ := hbody
      obtain ⟨op',error,hop',hres',hrun⟩ := step_runRead.mp hs
      obtain rfl := Option.some.inj (Option.mem_def.mp hop ▸ hop')
      obtain rfl := Option.some.inj (hres.symm.trans hres')
      rcases hrun with ⟨hhead,_⟩ | ⟨_,hrun⟩
      · rw [hh] at hhead
        cases hhead
      · simp only [Connection.onReadBody,if_true] at hrun
        cases reply with
        | none =>
            cases hrun
            rfl
        | some msg =>
            obtain ⟨v,hv,rfl⟩ := Option.map_eq_some_iff.mp hrun
            exact (silenced_write hv).dispatched
  | receive _ | readReady _ | readFail _ _ | callWrite _ | sendChunk _ _ | writeReady _
  | writeFail _ _ | runWrite _ | callStop => exact hbody.elim

/-- What has been dispatched stays. -/
theorem dispatched_mono (ho : u.isOpen = false) (hrun : exec (step abi) u es = some s) :
    u.dispatched.length ≤ s.dispatched.length := by
  have hboth : s.isOpen = false ∧ u.dispatched.length ≤ s.dispatched.length := by
    apply exec_preserves (step abi)
      (P := fun s => s.isOpen = false ∧ u.dispatched.length ≤ s.dispatched.length)
      ?_ ⟨ho,Nat.le_refl _⟩ hrun
    intro s e t hs hstep
    refine ⟨closed_stays hs.1 hstep,hs.2.trans ?_⟩
    by_cases hbody : BodyArrives s e
    · rw [dispatched_step hstep hbody,List.length_append]
      exact Nat.le_add_right _ _
    · rw [(silenced_step hs.1 hstep hbody).dispatched]
  exact hboth.2

/-- A run in which no body arrives. -/
theorem silenced_run (ho : u.isOpen = false) (hrun : exec (step abi) u es = some s)
    (h : AllSteps (step abi) (fun s e => ¬ BodyArrives s e) u es) :
    Silenced u s (es.countP endsRead) (es.filterMap callerWrite) := by
  induction es generalizing u with
  | nil =>
      cases hrun
      exact .of_same rfl rfl rfl
  | cons e es ih =>
      obtain ⟨v,hv,hrest⟩ := (exec_cons_eq_some _).mp hrun
      have htrans := (silenced_step ho hv h.1).trans (ih (closed_stays ho hv) hrest (h.2 v hv))
      rw [countP_cons_toNat,Nat.add_comm]
      cases e <;> exact htrans

/-- A run that dispatched nothing. -/
theorem no_body_of_dispatched (ho : u.isOpen = false) (hrun : exec (step abi) u es = some s)
    (h : s.dispatched.length ≤ u.dispatched.length) :
    AllSteps (step abi) (fun s e => ¬ BodyArrives s e) u es := by
  induction es generalizing u with
  | nil => trivial
  | cons e es ih =>
      obtain ⟨v,hv,hrest⟩ := (exec_cons_eq_some _).mp hrun
      have hclosed := closed_stays ho hv
      have hlen := h.trans' (dispatched_mono hclosed hrest)
      have hbody : ¬ BodyArrives u e := by
        intro hbody
        rw [dispatched_step hv hbody,List.length_append,List.length_singleton] at hlen
        omega
      refine ⟨hbody,?_⟩
      intro w hw
      obtain rfl := Option.some.inj (hv.symm.trans hw)
      apply ih hclosed hrest
      rwa [(silenced_step ho hv hbody).dispatched]

end After

/-- After `Close`, nothing is dispatched, read or replied exactly if no body
whose read had succeeded before is delivered any more. -/
theorem silenced_iff (abi : Abi) (u s : Connection) (es : List Event) (ho : u.isOpen = false)
    (hrun : exec (step abi) u es = some s) :
    Silenced u s (es.countP endsRead) (es.filterMap callerWrite) ↔
      AllSteps (step abi) (fun s e => ¬ BodyArrives s e) u es :=
  ⟨fun h => no_body_of_dispatched ho hrun (h.dispatched ▸ Nat.le_refl _),
    fun h => silenced_run ho hrun h⟩

/-- A body is read, then a failed write closes the connection. -/
def closedWithBody : List Event :=
  [.receive (Header.image .little {type := 1, length := 1}),.readReady 0,.runRead 0 none,
    .receive [7],.readReady 0,.callWrite (sample 1),.writeFail 0 32,.runWrite 0]

theorem silenced_iff_stop : ∃ s ∈ exec (step (lp64 .little)) (started .empty true "").close
    [.runRead 0 none,.callStop],
    Silenced (started .empty true "").close s 1 [] ↔
      AllSteps (step (lp64 .little)) (fun s e => ¬ BodyArrives s e) (started .empty true "").close
        [.runRead 0 none,.callStop] := by
  have hrun : ∃ s, exec (step (lp64 .little)) (started .empty true "").close
      [.runRead 0 none,.callStop] = some s := Option.isSome_iff_exists.mp (by decide)
  obtain ⟨s,hs⟩ := hrun
  exact ⟨s,hs,silenced_iff _ _ s _ rfl hs⟩

/-- The body is dispatched all the same. -/
theorem dispatched_after_close :
    ¬ ∀ (es fs : List Event) (u s : Connection),
      exec (step (lp64 .little)) (started .empty true "") es = some u → u.isOpen = false →
      exec (step (lp64 .little)) u fs = some s →
        Silenced u s (fs.countP endsRead) (fs.filterMap callerWrite) := by
  intro h
  have hrun : ∃ u ∈ exec (step (lp64 .little)) (started .empty true "") closedWithBody,
      u.isOpen = false ∧ ∃ s ∈ exec (step (lp64 .little)) u [.runRead 0 none],
        s.dispatched ≠ u.dispatched := by decide
  obtain ⟨u,hu,ho,s,hs,hne⟩ := hrun
  exact hne (h _ _ u s hu ho hs).dispatched

end SindiaRpc.ClosedConnections
