import SindiaRpc.StreamReading

/-!
# The histories of a connection over its steps

What a step adds to the bytes received and sent and to the messages dispatched,
written and dropped is known before it is taken. The frames of what has been
dispatched, and of the message that is dispatched next, are always at the front
of the bytes received, closed or not.
-/
namespace SindiaRpc.ConnectionHistories
open MessageFrames ConnectionState ConnectionWrites ReadLoop GuardedRuns

def arriving : Event → Bytes
  | .receive bytes => bytes
  | _ => []

def sending (s : Connection) : Event → Bytes
  | .sendChunk i n => (s.writes[i]?.map fun op => op.unsent.take n).getD []
  | _ => []

/-- The error that `OnWrite` is called with for write `i`. -/
def reported (s : Connection) (i : ℕ) : ErrorCode :=
  (s.writes[i]?.bind fun op => op.result.map op.bound.getD).getD 0

/-- What `clear` finds in the queue when `OnWrite` is called with an error. -/
def clearing (s : Connection) : Event → List Message
  | .runWrite i => if reported s i = 0 then [] else s.sendmsgqueue
  | _ => []

structure Histories where
  received : Bytes
  dispatched : List Message
  written : List Message
  dropped : List Message
  wire : Bytes

def histories (s : Connection) : Histories :=
  ⟨s.received,s.dispatched,s.written,s.dropped,s.wire⟩

/-- The histories after a step. -/
def Histories.after (s : Connection) (e : Event) : Histories :=
  ⟨s.received ++ arriving e,s.dispatched ++ (dispatching s e).toList,
    s.written ++ (writing s e).toList,s.dropped ++ clearing s e,s.wire ++ sending s e⟩

section Steps
variable {abi : Abi} {s t : Connection} {e : Event} {i : ℕ} {error : ErrorCode} {m msg : Message}
  {reply : Option Message}

/-- A step that adds nothing. -/
theorem after_idle (hr : arriving e = []) (hd : dispatching s e = none) (hw : writing s e = none)
    (hc : clearing s e = []) (hs : sending s e = []) : Histories.after s e = histories s := by
  simp [Histories.after,histories,hr,hd,hw,hc,hs]

theorem histories_onError (error : ErrorCode) (s : Connection) :
    histories (s.onError error) = histories s := by
  unfold Connection.onError
  split_ifs
  · rfl
  · rfl

theorem histories_onReadHead (error : ErrorCode) (s : Connection) :
    histories (s.onReadHead abi error) = histories s := by
  unfold Connection.onReadHead
  split_ifs
  · rfl
  · split
    · exact histories_onError error _
    · rfl
  · exact histories_onError error s

theorem histories_write (h : s.write abi msg = some t) :
    histories t = {histories s with written := s.written ++ [msg]} := by
  simp only [Connection.write] at h
  split_ifs at h
  · obtain ⟨bytes,_,rfl⟩ := Option.map_eq_some_iff.mp h
    rfl
  · cases h
    rfl

theorem histories_onReadBody (h : s.onReadBody abi 0 reply = some t) : histories t =
    {histories s with
      dispatched := s.dispatched ++ [s.message]
      written := s.written ++ reply.toList} := by
  simp only [Connection.onReadBody,if_true] at h
  cases reply with
  | none =>
      cases h
      simp [histories,Connection.readHead,Connection.asyncRead]
  | some msg =>
      obtain ⟨u,hu,rfl⟩ := Option.map_eq_some_iff.mp h
      exact histories_write hu

theorem histories_onWrite (h : s.onWrite abi error = some t) : histories t =
    {histories s with dropped := s.dropped ++ if error = 0 then [] else s.sendmsgqueue} := by
  unfold Connection.onWrite at h
  split_ifs at h ⊢ with he
  · rw [List.append_nil]
    split at h
    · cases h
      rfl
    · obtain ⟨bytes,_,rfl⟩ := Option.map_eq_some_iff.mp h
      rfl
  · rw [Connection.onError,if_neg he] at h
    cases h
    rfl

theorem histories_runRead (hs : step abi s (.runRead i reply) = some t) :
    histories t = .after s (.runRead i reply) := by
  obtain ⟨op,error,hop,hres,hrun⟩ := step_runRead.mp hs
  have hnone : incoming s i = none →
      Histories.after s (.runRead i reply) = histories s := by
    intro h
    exact after_idle rfl h (by rw [writing,h]; rfl) rfl rfl
  rcases hrun with ⟨hh,rfl⟩ | ⟨hh,hrun⟩
  · rw [hnone (by simp [incoming,hop,hh])]
    exact histories_onReadHead error {s with reads := s.reads.eraseIdx i}
  · by_cases he : error = 0
    · subst he
      have hin : incoming s i = some s.message := incoming_eq_some.mpr ⟨op,hop,hh,hres,rfl⟩
      rw [histories_onReadBody hrun]
      simp [Histories.after,histories,dispatching,writing,arriving,clearing,sending,hin]
    · rw [hnone (by simp [incoming,hop,hres,he])]
      rw [Connection.onReadBody,if_neg he] at hrun
      cases hrun
      exact histories_onError error {s with reads := s.reads.eraseIdx i}

theorem step_histories (hs : step abi s e = some t) : histories t = .after s e := by
  cases e with
  | receive bytes =>
      cases hs
      simp [Histories.after,histories,dispatching,writing,arriving,clearing,sending]
  | readReady i =>
      obtain ⟨op,buffer,_,_,_,_,_,rfl⟩ := step_readReady.mp hs
      exact (after_idle rfl rfl rfl rfl rfl).symm
  | readFail i error =>
      obtain ⟨op,_,_,_,rfl⟩ := step_readFail.mp hs
      exact (after_idle rfl rfl rfl rfl rfl).symm
  | runRead i reply => exact histories_runRead hs
  | callWrite msg =>
      rw [histories_write hs]
      simp [Histories.after,histories,dispatching,writing,arriving,clearing,sending]
  | sendChunk i n =>
      obtain ⟨op,hop,_,_,_,_,rfl⟩ := step_sendChunk.mp hs
      simp [Histories.after,histories,dispatching,writing,arriving,clearing,sending,hop]
  | writeReady i =>
      obtain ⟨op,_,_,_,rfl⟩ := step_writeReady.mp hs
      exact (after_idle rfl rfl rfl rfl rfl).symm
  | writeFail i error =>
      obtain ⟨op,_,_,_,rfl⟩ := step_writeFail.mp hs
      exact (after_idle rfl rfl rfl rfl rfl).symm
  | runWrite i =>
      obtain ⟨op,error,hop,hres,hrun⟩ := step_runWrite.mp hs
      have hreported : reported s i = op.bound.getD error := by
        rw [reported,hop,Option.bind_some,hres]
        rfl
      rw [histories_onWrite hrun,← hreported]
      simp [Histories.after,histories,dispatching,writing,arriving,clearing,sending]
  | callStop =>
      cases hs
      exact (after_idle rfl rfl rfl rfl rfl).symm

/-! ### The front of the stream -/

/-- The next message to be dispatched is a frame that has been received. -/
theorem incoming_received (h : ReadInv abi (view s)) (hin : incoming s i = some m) :
    Delivered abi m ∧ images (s.dispatched ++ [m]) <+: s.received := by
  obtain ⟨op,hop,hh,hres,rfl⟩ := incoming_eq_some.mp hin
  obtain ⟨_,_,hcase⟩ := h.phase.ready hop hres
  rcases hcase with hne | ⟨_,hhead,_⟩ | ⟨_,_,hm,hrec⟩
  · exact absurd rfl hne
  · rw [hh] at hhead
    cases hhead
  · refine ⟨hm,s.inbox,?_⟩
    rw [images_concat,List.append_assoc]
    exact hrec.symm

/-- What has been dispatched was received. -/
structure Consumed (abi : Abi) (s : Connection) : Prop where
  inv : ReadInv abi (view s)
  front : images s.dispatched <+: s.received

theorem Consumed.step (h : Consumed abi s) (hs : ConnectionState.step abi s e = some t) :
    Consumed abi t := by
  refine ⟨h.inv.step hs,?_⟩
  have hafter := step_histories hs
  have hdispatched : t.dispatched = s.dispatched ++ (dispatching s e).toList :=
    congrArg Histories.dispatched hafter
  have hreceived : t.received = s.received ++ arriving e := congrArg Histories.received hafter
  have hfront : images (s.dispatched ++ (dispatching s e).toList) <+: s.received := by
    cases hd : dispatching s e with
    | none => simpa using h.front
    | some m =>
        cases e with
        | runRead i reply => exact (incoming_received h.inv hd).2
        | receive _ | readReady _ | readFail _ _ | callWrite _ | sendChunk _ _ | writeReady _
        | writeFail _ _ | runWrite _ | callStop => cases hd
  rw [hdispatched,hreceived]
  exact hfront.trans (List.prefix_append _ _)

theorem run_consumed {m : Message} {cb : Bool} {addr : String} {es : List Event}
    (h : exec (ConnectionState.step abi) (started m cb addr) es = some s) : Consumed abi s := by
  apply exec_preserves (ConnectionState.step abi) (P := Consumed abi)
    (fun u e v hu hv => hu.step hv) ⟨started_inv abi m cb addr,List.prefix_refl _⟩ h

/-! ### Writing at the right time -/

/-- Nothing is passed to `Write`, or nothing is unsent. -/
def Unhurried (s t : Connection) : Prop := t.written = s.written ∨ WritesIdle s

instance (s t : Connection) : Decidable (Unhurried s t) := inferInstanceAs (Decidable (_ ∨ _))

theorem paced_of_unhurried (hs : ConnectionState.step abi s e = some t) (h : Unhurried s t) :
    PacedStep s e := by
  intro hsome
  rcases h with hsame | hidle
  · have hwritten : t.written = s.written ++ (writing s e).toList :=
      congrArg Histories.written (step_histories hs)
    obtain ⟨msg,hmsg⟩ := Option.isSome_iff_exists.mp hsome
    rw [hsame,hmsg] at hwritten
    simp at hwritten
  · exact hidle

theorem sequenced_step (h : Sequenced abi s) (hp : Unhurried s t)
    (hs : ConnectionState.step abi s e = some t) : Sequenced abi t :=
  h.step (paced_of_unhurried hs hp) hs

end Steps

end SindiaRpc.ConnectionHistories
