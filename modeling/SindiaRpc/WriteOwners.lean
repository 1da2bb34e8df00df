import SindiaRpc.ConnectionHolders
import SindiaRpc.WriteQueue

/-!
# Whether a write outlives its connection or its message

Nothing about a write keeps the connection alive or the message in scope. Both
hold through a run exactly as long as no builder returns before its message is
sent, and the last holder goes only when no write is outstanding.
-/
namespace SindiaRpc.WriteOwners
open MessageFrames ConnectionState ConnectionHolders GuardedRuns ReadGuards ReadLoop WriteQueue
  ListUpdates

/-- The operation still reads from the buffer of its message. -/
def Sending (op : WriteOp) : Prop := op.result = none ∧ op.unsent ≠ []

instance (op : WriteOp) : Decidable (Sending op) := inferInstanceAs (Decidable (_ ∧ _))

/-- The message of every write still sending is in scope. -/
def InScope (ops : List WriteOp) (bs : List Builder) : Prop :=
  ∀ (j : ℕ) (op : WriteOp), ops[j]? = some op → Sending op → ∃ b ∈ bs[j]?, b ≠ .returned

/-- Where a write is outstanding the connection has a holder, and no message
has gone out of scope too early. -/
structure Owned (s : Holders) : Prop where
  held : s.conn.writes ≠ [] → s.Held
  scope : InScope s.conn.writes s.builders

/-! ### What goes wrong -/

/-- A write is still sending a message that `b` built. -/
def Sends (s : Holders) (b : Builder) : Prop :=
  ∃ (j : ℕ) (op : WriteOp), s.conn.writes[j]? = some op ∧ s.builders[j]? = some b ∧ Sending op

/-- A builder returns whose message is being sent. -/
def ReturnsEarly (s : Holders) : ConnectionHolders.Event → Prop
  | .finish => s.callback = true ∧ Sends s .dispatch
  | .ret f => Sends s (.caller f)
  | _ => False

/-- The step calls `Close`. -/
def Closes (s : Connection) : ConnectionState.Event → Prop
  | .runRead i _ => ∃ op ∈ s.reads[i]?, ∃ e ∈ op.result, e ≠ 0 ∧
      (op.handler = .onReadHead → s.isOpen = true)
  | .runWrite i => ∃ op ∈ s.writes[i]?, ∃ e ∈ op.result, op.bound.getD e ≠ 0
  | .callStop => True
  | _ => False

/-- A read is pending after the step: another one, or the body read that an
accepted header asks for. -/
def ReadsOn (abi : Abi) (s : Connection) : ConnectionState.Event → Prop
  | .runRead i _ => s.reads.length ≠ 1 ∨ s.isOpen = true ∧ Accepted abi s.message ∧
      ∃ op ∈ s.reads[i]?, op.handler = .onReadHead ∧ op.result = some 0
  | _ => s.reads ≠ []

/-- A write is outstanding after the step. -/
def WritesOn (s : Connection) : ConnectionState.Event → Prop
  | .runWrite _ => s.writes.length ≠ 1
  | _ => s.writes ≠ []

/-- The last holder goes while a write is outstanding: the last read handler
ends, or `m_connection` or `m_conn` is taken away. -/
def LetsGo (abi : Abi) (s : Holders) : ConnectionHolders.Event → Prop
  | .io e => (s.Held ∧ s.Plain e ∧ ∃ t, ConnectionState.step abi s.conn e = some t) ∧
      WritesOn s.conn e ∧ ¬ ReadsOn abi s.conn e ∧
      (s.connection = true → Closes s.conn e ∧ s.conn.closecb = true) ∧
      s.channel = false ∧ s.callback = false
  | .replace => s.connection = true ∧ s.conn.writes ≠ [] ∧ s.conn.reads = [] ∧
      s.channel = false ∧ s.callback = false
  | .setConnection this => this = false ∧ s.channel = true ∧ s.conn.writes ≠ [] ∧
      s.conn.reads = [] ∧ s.connection = false ∧ s.callback = false
  | _ => False

/-! ### What a step of the connection does to its operations -/

/-- The writes `ops'` are `ops`, with no more to send. -/
structure Subsides (ops ops' : List WriteOp) : Prop where
  length : ops'.length = ops.length
  sending : ∀ (j : ℕ) (op' : WriteOp), ops'[j]? = some op' → Sending op' →
    ∃ op, ops[j]? = some op ∧ Sending op

/-- The writes that are left when the handler of one runs. -/
def remaining (s : Connection) : ConnectionState.Event → List WriteOp
  | .runWrite i => s.writes.eraseIdx i
  | _ => s.writes

structure Effect (abi : Abi) (s t : Connection) (e : ConnectionState.Event) : Prop where
  reads : t.reads ≠ [] ↔ ReadsOn abi s e
  writes : Subsides (remaining s e) t.writes
  called : s.closecbCalls < t.closecbCalls ↔ Closes s e ∧ s.closecb = true

section Effects
variable {abi : Abi} {s t : Connection} {e : ConnectionState.Event} {ops : List WriteOp} {i : ℕ}
  {op op' : WriteOp} {error : ErrorCode}

theorem Subsides.refl (ops : List WriteOp) : Subsides ops ops :=
  ⟨rfl,fun _ op' hop' hs => ⟨op',hop',hs⟩⟩

theorem not_sending_abort (op : WriteOp) : ¬ Sending op.abort := by
  intro h
  have hnone := h.1
  simp only [WriteOp.abort] at hnone
  cases hr : op.result <;> simp [hr] at hnone

theorem Subsides.abort (ops : List WriteOp) : Subsides ops (ops.map WriteOp.abort) := by
  refine ⟨List.length_map ..,?_⟩
  intro j op' hop' hs
  obtain ⟨op,_,rfl⟩ := List.mem_map.mp (List.mem_of_getElem? hop')
  exact absurd hs (not_sending_abort op)

theorem Subsides.onError (error : ErrorCode) (s : Connection) :
    Subsides s.writes (s.onError error).writes := by
  unfold Connection.onError
  split_ifs
  · exact .refl _
  · exact .abort _

theorem Subsides.set (hop : ops[i]? = some op) (hs : Sending op' → Sending op) :
    Subsides ops (ops.set i op') := by
  refine ⟨List.length_set ..,?_⟩
  intro j b hb hsend
  rcases getElem?_set_cases hb with ⟨rfl,rfl⟩ | ⟨_,hold⟩
  · exact ⟨op,hop,hs hsend⟩
  · exact ⟨b,hold,hsend⟩

theorem reads_onError (error : ErrorCode) (s : Connection) :
    (s.onError error).reads = [] ↔ s.reads = [] := by
  unfold Connection.onError
  split_ifs
  · exact Iff.rfl
  · exact List.map_eq_nil_iff

/-- The callback is called by a step that closes, if it is set. -/
theorem called_iff {C : Prop} [Decidable C]
    (h : notice t = if C then (notice s).close else notice s) :
    s.closecbCalls < t.closecbCalls ↔ C ∧ s.closecb = true := by
  have hcalls := congrArg Notice.closecbCalls h
  split_ifs at hcalls with hc
  · have hclose : t.closecbCalls = s.closecbCalls + if s.closecb then 1 else 0 := hcalls
    rw [hclose]
    cases s.closecb <;> simp [hc]
  · have hsame : t.closecbCalls = s.closecbCalls := hcalls
    simp [hc,hsame]

variable (abi) in
/-- `OnReadHead` closes, asks for the body, or does nothing. -/
theorem onReadHead_effect (error : ErrorCode) (s : Connection) :
    ((s.onReadHead abi error).reads ≠ [] ↔
      s.reads ≠ [] ∨ s.isOpen = true ∧ error = 0 ∧ Accepted abi s.message) ∧
    Subsides s.writes (s.onReadHead abi error).writes ∧
    notice (s.onReadHead abi error) =
      if s.isOpen = true ∧ error ≠ 0 then (notice s).close else notice s := by
  cases ho : s.isOpen with
  | false =>
      rw [Connection.onReadHead,ho]
      simp [Subsides.refl]
  | true =>
      by_cases he : error = 0
      · subst he
        by_cases ha : Accepted abi s.message
        · have hparse := Message.parseHeader_accepts ha
          rw [Connection.onReadHead,ho,hparse]
          simp [Connection.readBody,Connection.asyncRead,Subsides.refl,ha,ho,notice]
        · have hparse := Message.parseHeader_refuses (not_le.mp ha)
          rw [Connection.onReadHead,ho,hparse]
          simp [Connection.onError,Subsides.refl,ha,ho,notice]
      · rw [Connection.onReadHead,ho]
        simp [he,reads_onError,Subsides.onError,notice_onError]

theorem eraseIdx_ne_nil {α : Type*} {l : List α} {a : α} (h : l[i]? = some a) :
    l.eraseIdx i ≠ [] ↔ l.length ≠ 1 := by
  obtain ⟨hlt,_⟩ := List.getElem?_eq_some_iff.mp h
  have hlen := List.length_eraseIdx_of_lt hlt
  rw [ne_eq,← List.length_eq_zero_iff,hlen]
  omega

/-- Steps that run no handler. -/
theorem Effect.quiet (hr : t.reads ≠ [] ↔ s.reads ≠ []) (hw : Subsides s.writes t.writes)
    (hn : notice t = notice s) (hreads : ReadsOn abi s e ↔ s.reads ≠ [])
    (hwrites : remaining s e = s.writes) (hcloses : ¬ Closes s e) : Effect abi s t e where
  reads := hr.trans hreads.symm
  writes := hwrites ▸ hw
  called := (called_iff (hn.trans (if_neg not_false).symm)).trans
    (iff_of_false And.left fun h => hcloses h.1)

theorem effect_runHead {reply : Option Message} {op : ReadOp} (hop : s.reads[i]? = some op)
    (hhead : op.handler = .onReadHead) (hres : op.result = some error) :
    Effect abi s (Connection.onReadHead abi error {s with reads := s.reads.eraseIdx i})
      (.runRead i reply) := by
  obtain ⟨hreads,hwrites,hnotice⟩ := onReadHead_effect abi error
    {s with reads := s.reads.eraseIdx i}
  refine ⟨hreads.trans ?_,hwrites,(called_iff hnotice).trans ?_⟩
  · rw [eraseIdx_ne_nil hop]
    simp [ReadsOn,hop,hhead,hres,and_comm,and_left_comm]
  · simp [Closes,hop,hhead,hres,and_comm,and_left_comm]

/-- A body read that failed closes. -/
theorem effect_runBody {reply : Option Message} {op : ReadOp} (hop : s.reads[i]? = some op)
    (hbody : op.handler = .onReadBody) (hres : op.result = some error) (herror : error ≠ 0) :
    Effect abi s (Connection.onError error {s with reads := s.reads.eraseIdx i})
      (.runRead i reply) := by
  have hwrites := Subsides.onError error {s with reads := s.reads.eraseIdx i}
  refine ⟨?_,hwrites,(called_iff (C := error ≠ 0) ?_).trans ?_⟩
  · rw [ne_eq,reads_onError,← ne_eq,eraseIdx_ne_nil hop]
    simp [ReadsOn,hop,hbody]
  · rw [notice_onError,ite_not]
    rfl
  · simp [Closes,hop,hbody,hres,herror]

theorem effect_runWrite (hop : s.writes[i]? = some op) (hres : op.result = some error)
    (hq : s.sendmsgqueue = [])
    (h : Connection.onWrite abi (op.bound.getD error) {s with writes := s.writes.eraseIdx i} =
      some t) : Effect abi s t (.runWrite i) := by
  have hnotice := notice_onWrite h
  have hcalled : s.closecbCalls < t.closecbCalls ↔ Closes s (.runWrite i) ∧ s.closecb = true := by
    refine (called_iff (C := op.bound.getD error ≠ 0) ?_).trans ?_
    · rw [hnotice,ite_not]
      rfl
    · simp [Closes,hop,hres]
  unfold Connection.onWrite at h
  split_ifs at h
  · simp only [hq] at h
    cases h
    exact ⟨Iff.rfl,.refl _,hcalled⟩
  · cases h
    have hwrites := Subsides.onError (op.bound.getD error)
      {s with writes := s.writes.eraseIdx i}
    exact ⟨not_congr (reads_onError ..),hwrites,hcalled⟩

/-- What the steps of the connection do that neither write nor dispatch. -/
theorem effect_step {s : Holders} {t : Connection} (hp : s.Plain e) (hq : s.conn.sendmsgqueue = [])
    (h : ConnectionState.step abi s.conn e = some t) : Effect abi s.conn t e := by
  cases e with
  | receive bytes =>
      cases h
      exact .quiet Iff.rfl (.refl _) rfl Iff.rfl rfl id
  | readReady i =>
      obtain ⟨op,buffer,_,_,_,_,_,rfl⟩ := step_readReady.mp h
      exact .quiet (by simp) (.refl _) rfl Iff.rfl rfl id
  | readFail i error =>
      obtain ⟨op,_,_,_,rfl⟩ := step_readFail.mp h
      exact .quiet (by simp) (.refl _) rfl Iff.rfl rfl id
  | runRead i reply =>
      obtain ⟨op,error,hop,hres,⟨hhead,rfl⟩ | ⟨hbody,hrun⟩⟩ := step_runRead.mp h
      · exact effect_runHead hop hhead hres
      · have herror : error ≠ 0 := by
          rintro rfl
          exact hp.2 op hop hbody hres
        simp only [Connection.onReadBody,if_neg herror] at hrun
        cases hrun
        exact effect_runBody hop hbody hres herror
  | callWrite msg => exact absurd hp id
  | sendChunk i n =>
      obtain ⟨op,hop,_,hnone,_,_,rfl⟩ := step_sendChunk.mp h
      refine .quiet Iff.rfl (.set hop ?_) rfl Iff.rfl rfl id
      intro hs
      refine ⟨hnone,?_⟩
      intro hnil
      simp [Sending,hnil] at hs
  | writeReady i =>
      obtain ⟨op,hop,_,_,rfl⟩ := step_writeReady.mp h
      exact .quiet Iff.rfl (.set hop fun hs => by cases hs.1) rfl Iff.rfl rfl id
  | writeFail i error =>
      obtain ⟨op,hop,_,_,rfl⟩ := step_writeFail.mp h
      exact .quiet Iff.rfl (.set hop fun hs => by cases hs.1) rfl Iff.rfl rfl id
  | runWrite i =>
      obtain ⟨op,error,hop,hres,hrun⟩ := step_runWrite.mp h
      exact effect_runWrite hop hres hq hrun
  | callStop =>
      cases h
      refine ⟨?_,.abort _,(called_iff (C := True) rfl).trans Iff.rfl⟩
      simp [Connection.stop,Connection.close,ReadsOn]

theorem writesOn_iff (h : ConnectionState.step abi s e = some t) :
    remaining s e ≠ [] ↔ WritesOn s e := by
  cases e with
  | runWrite i =>
      obtain ⟨op,error,hop,_⟩ := step_runWrite.mp h
      exact eraseIdx_ne_nil hop
  | receive _ | readReady _ | readFail _ _ | runRead _ _ | callWrite _ | sendChunk _ _
  | writeReady _ | writeFail _ _ | callStop => exact Iff.rfl

end Effects

/-! ### Scopes -/

section Scopes
variable {ops ops' : List WriteOp} {bs : List Builder} {b : Builder} {n i : ℕ}

theorem InScope.subsides (h : InScope ops bs) (hs : Subsides ops ops') : InScope ops' bs := by
  intro j op' hop' hsend
  obtain ⟨op,hop,hsend⟩ := hs.sending j op' hop' hsend
  exact h j op hop hsend

theorem InScope.eraseIdx (h : InScope ops bs) (i : ℕ) :
    InScope (ops.eraseIdx i) (bs.eraseIdx i) := by
  intro j op hop hsend
  rw [List.getElem?_eraseIdx] at hop ⊢
  split_ifs at hop ⊢
  · exact h j op hop hsend
  · exact h (j + 1) op hop hsend

theorem InScope.enter (h : InScope ops bs) (b : Builder) (n : ℕ) : InScope ops (enter b n bs) := by
  intro j op hop hsend
  obtain ⟨x,hx,hne⟩ := h j op hop hsend
  obtain ⟨hlt,_⟩ := List.getElem?_eq_some_iff.mp hx
  refine ⟨x,?_,hne⟩
  rw [ConnectionHolders.enter,List.getElem?_append_left hlt]
  exact hx

theorem length_enter (h : bs.length ≤ n) : (enter b n bs).length = n := by
  rw [enter,List.length_append,List.length_replicate]
  omega

/-- A write that was just started has its builder running. -/
theorem InScope.started (h : InScope ops bs) (hlen : bs.length = ops.length) (hb : b ≠ .returned)
    (op : WriteOp) : InScope (ops ++ [op]) (ConnectionHolders.enter b (ops ++ [op]).length bs) := by
  intro j op' hop' hsend
  rcases getElem?_concat_cases hop' with hop' | ⟨rfl,rfl⟩
  · exact h.enter b _ j op' hop' hsend
  · refine ⟨b,?_,hb⟩
    rw [ConnectionHolders.enter,List.length_append,hlen,List.length_singleton,
      Nat.add_sub_cancel_left,← hlen]
    simp

theorem getElem?_leave {j : ℕ} {x : Builder} (h : bs[j]? = some x) :
    (leave b bs)[j]? = some (if x = b then .returned else x) := by
  rw [leave,List.getElem?_map,h]
  rfl

end Scopes

section Steps
variable {abi : Abi} {s t : Holders} {e : ConnectionHolders.Event} {b : Builder}

theorem InScope.leave (h : InScope s.conn.writes s.builders) (hb : ¬ Sends s b) :
    InScope s.conn.writes (ConnectionHolders.leave b s.builders) := by
  intro j op hop hsend
  obtain ⟨x,hx,hne⟩ := h j op hop hsend
  have hx' : s.builders[j]? = some x := hx
  refine ⟨x,?_,hne⟩
  rw [getElem?_leave hx',if_neg]
  · rfl
  · rintro rfl
    exact hb ⟨j,op,hop,hx',hsend⟩

theorem Sends.not_inScope (h : Sends s b) :
    ¬ InScope s.conn.writes (ConnectionHolders.leave b s.builders) := by
  obtain ⟨j,op,hop,hbuilder,hsend⟩ := h
  intro hscope
  obtain ⟨x,hx,hne⟩ := hscope j op hop hsend
  rw [getElem?_leave hbuilder,if_pos rfl] at hx
  exact hne (Option.some.inj hx).symm

structure Intact (s : Holders) : Prop extends Owned s where
  queue : s.conn.sendmsgqueue = []
  builders : s.builders.length = s.conn.writes.length

theorem inScope_remaining (s : Holders) (e : ConnectionState.Event) (h : Intact s) :
    InScope (remaining s.conn e) (s.remaining e) := by
  cases e with
  | runWrite i => exact h.scope.eraseIdx i
  | receive _ | readReady _ | readFail _ _ | runRead _ _ | callWrite _ | sendChunk _ _
  | writeReady _ | writeFail _ _ | callStop => exact h.scope

theorem length_remaining (s : Holders) (e : ConnectionState.Event) (h : Intact s) :
    (s.remaining e).length = (remaining s.conn e).length := by
  cases e with
  | runWrite i =>
      simp only [Holders.remaining,remaining,List.length_eraseIdx,h.builders]
  | receive _ | readReady _ | readFail _ _ | runRead _ _ | callWrite _ | sendChunk _ _
  | writeReady _ | writeFail _ _ | callStop => exact h.builders

/-- The holders after a step of the connection. -/
theorem held_io {e : ConnectionState.Event} {conn : Connection} (h : Effect abi s.conn conn e) :
    Holders.Held {s with
      conn := conn
      connection := s.connection && !decide (s.conn.closecbCalls < conn.closecbCalls)} ↔
    ReadsOn abi s.conn e ∨
      (s.connection = true ∧ ¬ (Closes s.conn e ∧ s.conn.closecb = true)) ∨
      s.channel = true ∨ s.callback = true := by
  simp only [Holders.Held,h.reads,h.called,Bool.and_eq_true,Bool.not_eq_true',
    decide_eq_false_iff_not]

theorem writes_io {e : ConnectionState.Event} {conn : Connection}
    (h : Effect abi s.conn conn e) (hs : ConnectionState.step abi s.conn e = some conn) :
    conn.writes ≠ [] ↔ WritesOn s.conn e := by
  rw [← writesOn_iff hs,ne_eq,ne_eq,← List.length_eq_zero_iff,← List.length_eq_zero_iff,
    h.writes.length]

theorem Intact.io (h : Intact s) {e : ConnectionState.Event} (he : ¬ LetsGo abi s (.io e))
    (hs : ConnectionHolders.step abi s (.io e) = some t) : Intact t := by
  obtain ⟨hheld,hplain,conn,hstep,rfl⟩ := step_io.mp hs
  have heffect := effect_step hplain h.queue hstep
  have hlen : (s.remaining e).length = conn.writes.length := by
    rw [length_remaining s e h,heffect.writes.length]
  refine ⟨⟨?_,?_⟩,queue_step h.queue hstep,length_enter (Nat.le_of_eq hlen)⟩
  · intro hne
    by_contra hfree
    have hnone := mt (held_io heffect).mpr hfree
    simp only [not_or,not_and_or,not_not] at hnone
    obtain ⟨hreads,hconn,hchannel,hcallback⟩ := hnone
    refine he ⟨⟨hheld,hplain,conn,hstep⟩,(writes_io heffect hstep).mp hne,hreads,?_,?_,?_⟩
    · intro htrue
      exact hconn.resolve_left (not_not.mpr htrue)
    · simpa using hchannel
    · simpa using hcallback
  · exact ((inScope_remaining s e h).subsides heffect.writes).enter _ _

theorem LetsGo.io (h : Intact s) {e : ConnectionState.Event} (he : LetsGo abi s (.io e)) :
    ∃ t, ConnectionHolders.step abi s (.io e) = some t ∧ ¬ Owned t := by
  obtain ⟨⟨hheld,hplain,conn,hstep⟩,hwrites,hreads,hconn,hchannel,hcallback⟩ := he
  have heffect := effect_step hplain h.queue hstep
  refine ⟨_,step_io.mpr ⟨hheld,hplain,conn,hstep,rfl⟩,?_⟩
  intro howned
  have hafter := (held_io heffect).mp (howned.held ((writes_io heffect hstep).mpr hwrites))
  rcases hafter with hr | ⟨hc,hn⟩ | hc | hc
  · exact hreads hr
  · exact hn (hconn hc)
  · rw [hchannel] at hc
    cases hc
  · rw [hcallback] at hc
    cases hc

/-- `Write` with nothing queued. -/
theorem write_started {msg : Message} {c d : Connection} (hq : c.sendmsgqueue = [])
    (h : c.write abi msg = some d) :
    d.sendmsgqueue = [] ∧ ∃ op, d.writes = c.writes ++ [op] := by
  obtain ⟨_,rfl⟩ := (write_unqueued hq).mp h
  exact ⟨hq,_,rfl⟩

theorem Intact.entered (h : Intact s) (hb : b ≠ .returned) {conn : Connection}
    (hq : conn.sendmsgqueue = [])
    (hw : conn.writes = s.conn.writes ∨ ∃ op, conn.writes = s.conn.writes ++ [op])
    {connection channel callback : Bool}
    (hheld : Holders.Held ⟨conn,connection,channel,callback,enter b conn.writes.length s.builders⟩) :
    Intact ⟨conn,connection,channel,callback,enter b conn.writes.length s.builders⟩ := by
  have hlen := h.builders
  refine ⟨⟨fun _ => hheld,?_⟩,hq,length_enter ?_⟩
  · rcases hw with hw | ⟨op,hw⟩
    · change InScope conn.writes (enter b conn.writes.length s.builders)
      rw [hw]
      exact h.scope.enter _ _
    · change InScope conn.writes (enter b conn.writes.length s.builders)
      rw [hw]
      exact h.scope.started hlen hb op
  · rcases hw with hw | ⟨op,hw⟩
    · rw [hw,hlen]
    · rw [hw,hlen,List.length_append]
      omega

theorem dispatchBody_writes {reply : Option Message} {c d : Connection} (hq : c.sendmsgqueue = [])
    (h : dispatchBody abi reply c = some d) :
    d.sendmsgqueue = [] ∧ (d.writes = c.writes ∨ ∃ op, d.writes = c.writes ++ [op]) := by
  cases reply with
  | none =>
      cases h
      exact ⟨hq,Or.inl rfl⟩
  | some msg =>
      obtain ⟨hqueue,hw⟩ := write_started
        (c := {c with dispatched := c.dispatched ++ [c.message]}) hq h
      exact ⟨hqueue,Or.inr hw⟩

theorem Intact.dispatch (h : Intact s) {i : ℕ} {reply : Option Message}
    (hs : ConnectionHolders.step abi s (.dispatch i reply) = some t) : Intact t := by
  obtain ⟨op,_,_,_,_,conn,hbody,rfl⟩ := step_dispatch.mp hs
  obtain ⟨hq,hw⟩ := dispatchBody_writes
    (c := {s.conn with reads := s.conn.reads.eraseIdx i}) h.queue hbody
  exact h.entered (by simp) hq hw (Or.inr (Or.inr (Or.inr rfl)))

theorem Intact.finish (h : Intact s) (he : ¬ ReturnsEarly s .finish)
    (hs : ConnectionHolders.step abi s .finish = some t) : Intact t := by
  obtain ⟨hcallback,rfl⟩ := step_finish.mp hs
  refine ⟨⟨?_,h.scope.leave fun hsends => he ⟨hcallback,hsends⟩⟩,h.queue,?_⟩
  · intro _
    left
    simp [Connection.readHead,Connection.asyncRead]
  · exact (List.length_map ..).trans h.builders

theorem Intact.call (h : Intact s) {f : ℕ} {msg : Message}
    (hs : ConnectionHolders.step abi s (.call f msg) = some t) : Intact t := by
  obtain ⟨hguard,conn,hwrite,rfl⟩ := step_call.mp hs
  obtain ⟨hq,hw⟩ := write_started h.queue hwrite
  apply h.entered (by simp) hq (Or.inr hw)
  rcases hguard with hchannel | ⟨hconn,_⟩
  · exact Or.inr (Or.inr (Or.inl hchannel))
  · exact Or.inr (Or.inl hconn)

theorem Intact.ret (h : Intact s) {f : ℕ} (he : ¬ ReturnsEarly s (.ret f)) :
    Intact {s with builders := leave (.caller f) s.builders} :=
  ⟨⟨h.held,h.scope.leave he⟩,h.queue,(List.length_map ..).trans h.builders⟩

theorem Intact.replace (h : Intact s) (he : ¬ LetsGo abi s .replace) (hconn : s.connection = true) :
    Intact {s with connection := false} := by
  refine ⟨⟨?_,h.scope⟩,h.queue,h.builders⟩
  intro hne
  by_contra hfree
  simp only [Holders.Held,not_or,not_not,Bool.not_eq_true] at hfree
  exact he ⟨hconn,hne,hfree.1,hfree.2.2.1,hfree.2.2.2⟩

theorem Intact.setConnection (h : Intact s) {this : Bool}
    (he : ¬ LetsGo abi s (.setConnection this)) : Intact {s with channel := this} := by
  refine ⟨⟨?_,h.scope⟩,h.queue,h.builders⟩
  intro hne
  by_contra hfree
  simp only [Holders.Held,not_or,not_not,Bool.not_eq_true] at hfree
  obtain ⟨hreads,hconn,hthis,hcallback⟩ := hfree
  rcases h.held hne with hr | hc | hc | hc
  · exact hr hreads
  · rw [hconn] at hc
    cases hc
  · exact he ⟨hthis,hc,hne,hreads,hconn,hcallback⟩
  · rw [hcallback] at hc
    cases hc

theorem Intact.step (h : Intact s) (he : ¬ ReturnsEarly s e ∧ ¬ LetsGo abi s e)
    (hs : ConnectionHolders.step abi s e = some t) : Intact t := by
  cases e with
  | io e => exact h.io he.2 hs
  | dispatch i reply => exact h.dispatch hs
  | finish => exact h.finish he.1 hs
  | call f msg => exact h.call hs
  | ret f =>
      cases hs
      exact h.ret he.1
  | replace =>
      obtain ⟨hconn,rfl⟩ := step_replace.mp hs
      exact h.replace he.2 hconn
  | setConnection this =>
      obtain ⟨_,rfl⟩ := step_setConnection.mp hs
      exact h.setConnection he.2

theorem ReturnsEarly.step (he : ReturnsEarly s e) :
    ∃ t, ConnectionHolders.step abi s e = some t ∧ ¬ Owned t := by
  cases e with
  | finish =>
      refine ⟨_,step_finish.mpr ⟨he.1,rfl⟩,?_⟩
      exact fun howned => he.2.not_inScope howned.scope
  | ret f => exact ⟨_,rfl,fun howned => Sends.not_inScope he howned.scope⟩
  | io _ | dispatch _ _ | call _ _ | replace | setConnection _ => exact absurd he id

theorem LetsGo.step (h : Intact s) (he : LetsGo abi s e) :
    ∃ t, ConnectionHolders.step abi s e = some t ∧ ¬ Owned t := by
  cases e with
  | io e => exact LetsGo.io h he
  | replace =>
      obtain ⟨hconn,hne,hreads,hchannel,hcallback⟩ := he
      refine ⟨_,step_replace.mpr ⟨hconn,rfl⟩,?_⟩
      intro howned
      simpa [Holders.Held,hreads,hchannel,hcallback] using howned.held hne
  | setConnection this =>
      obtain ⟨rfl,_,hne,hreads,hconn,hcallback⟩ := he
      refine ⟨_,step_setConnection.mpr ⟨fun hfalse => (by cases hfalse),rfl⟩,?_⟩
      intro howned
      simpa [Holders.Held,hreads,hconn,hcallback] using howned.held hne
  | dispatch _ _ | finish | call _ _ | ret _ => exact absurd he id

theorem intact_fresh (client : Bool) (m : Message) (cb : Bool) (addr : String) :
    Intact (fresh client m cb addr) := by
  refine ⟨⟨fun hne => absurd rfl hne,?_⟩,rfl,rfl⟩
  intro j op hop
  cases hop

end Steps

/-- Every pending write has an owner in every state of a run exactly if no
builder returns early and the last holder never goes while a write is
outstanding. -/
theorem writes_owned_iff (abi : Abi) (client : Bool) (m : Message) (cb : Bool) (addr : String)
    (es : List ConnectionHolders.Event) :
    AllStates (ConnectionHolders.step abi) Owned (fresh client m cb addr) es ↔
      AllSteps (ConnectionHolders.step abi) (fun s e => ¬ ReturnsEarly s e ∧ ¬ LetsGo abi s e)
        (fresh client m cb addr) es := by
  apply allStates_iff_allSteps (I := Intact) (fun _ h => h.toOwned)
    (fun _ _ _ h he hs => h.step he hs)
  · intro s e h he
    rcases not_and_or.mp he with hearly | hgo
    · exact ReturnsEarly.step (not_not.mp hearly)
    · exact LetsGo.step h (not_not.mp hgo)
  · exact intact_fresh client m cb addr

/-- A request that has been read, and the reply to it passed to `Write`. -/
def replying : List ConnectionHolders.Event :=
  [.io (.receive ((sample 1).frame (lp64 .little))),.io (.readReady 0),.io (.runRead 0 none),
    .io (.readReady 0),.dispatch 0 (some (sample 2))]

/-- On a server `dispatch` returns before its reply is sent; and if it is sent
in time, the peer may go before `OnWrite` runs. -/
theorem reply_unowned :
    (¬ ∀ es, AllStates (ConnectionHolders.step (lp64 .little))
      (fun s => InScope s.conn.writes s.builders) (fresh false .empty true "") es) ∧
    ¬ ∀ es, AllStates (ConnectionHolders.step (lp64 .little))
      (fun s => s.conn.writes ≠ [] → s.Held) (fresh false .empty true "") es := by
  constructor
  · intro h
    have hrun : ∃ s ∈ exec (ConnectionHolders.step (lp64 .little)) (fresh false .empty true "")
        (replying ++ [.finish]), ∃ op ∈ s.conn.writes[0]?, Sending op ∧
          s.builders[0]? = some .returned := by decide
    obtain ⟨s,hs,op,hop,hsend,hbuilder⟩ := hrun
    obtain ⟨b,hb,hne⟩ := (h _).last hs 0 op hop hsend
    exact hne (Option.some.inj (hbuilder.symm.trans hb)).symm
  · intro h
    have hrun : ∃ s ∈ exec (ConnectionHolders.step (lp64 .little)) (fresh false .empty true "")
        (replying ++ [.io (.sendChunk 0 21),.finish,.io (.readFail 0 2),.io (.runRead 0 none)]),
        s.conn.writes.length = 1 ∧ ¬ s.Held := by decide
    obtain ⟨s,hs,hlen,hfree⟩ := hrun
    apply hfree ((h _).last hs ?_)
    intro hnil
    rw [hnil] at hlen
    cases hlen

end SindiaRpc.WriteOwners
