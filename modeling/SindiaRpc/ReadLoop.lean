import SindiaRpc.ConnectionState

/-!
# The two-phase read loop

At any moment the bytes received so far are the wire images of the messages
dispatched, then what the frame being read has already put into `m_buffer`,
then the unread rest. `ReadPhase` says which part of the frame that is; it
holds in every state of every run of a started connection, whatever fails, is
written or is closed in between.
-/
namespace SindiaRpc.ReadLoop
open MessageFrames ConnectionState GuardedRuns

/-- The fields the read loop works on. -/
structure ReadView where
  isOpen : Bool
  message : Message
  inbox : Bytes
  reads : List ReadOp
  received : Bytes
  dispatched : List Message

def view (s : Connection) : ReadView :=
  ⟨s.isOpen,s.message,s.inbox,s.reads,s.received,s.dispatched⟩

def images (ms : List Message) : Bytes := (ms.map Message.wireImage).flatten

@[simp] theorem images_concat (ms : List Message) (m : Message) :
    images (ms ++ [m]) = images ms ++ m.wireImage := by
  simp [images]

/-- The header check accepts the header image in the buffer. -/
def Accepted (abi : Abi) (m : Message) : Prop := abi.size (m.announced abi + 20) ≤ 4096

instance (abi : Abi) (m : Message) : Decidable (Accepted abi m) :=
  inferInstanceAs (Decidable (_ ≤ _))

inductive ReadPhase (abi : Abi) : ReadView → Prop
  | head {v : ReadView} (r : Option ErrorCode) (hr : r ≠ some 0)
      (reads : v.reads = [⟨.onReadHead,0,20,r⟩])
      (received : v.received = images v.dispatched ++ v.inbox) : ReadPhase abi v
  | headDone {v : ReadView} (reads : v.reads = [⟨.onReadHead,0,20,some 0⟩])
      (received : v.received = images v.dispatched ++ (v.message.buffer.slice 0 20 ++ v.inbox)) :
      ReadPhase abi v
  | body {v : ReadView} (r : Option ErrorCode) (hr : r ≠ some 0)
      (reads : v.reads = [⟨.onReadBody,20,v.message.bodyLength,r⟩])
      (parsed : v.message.Parsed abi) (accepted : Accepted abi v.message)
      (received : v.received = images v.dispatched ++ (v.message.buffer.slice 0 20 ++ v.inbox)) :
      ReadPhase abi v
  | bodyDone {v : ReadView} (reads : v.reads = [⟨.onReadBody,20,v.message.bodyLength,some 0⟩])
      (parsed : v.message.Parsed abi) (fits : Buffer.InRange 4096 20 v.message.bodyLength)
      (received : v.received = images v.dispatched ++ (v.message.wireImage ++ v.inbox)) :
      ReadPhase abi v
  | refused {v : ReadView} (isOpen : v.isOpen = true) (reads : v.reads = [])
      (refused : ¬ Accepted abi v.message)
      (received : v.received = images v.dispatched ++ (v.message.buffer.slice 0 20 ++ v.inbox)) :
      ReadPhase abi v
  | ended {v : ReadView} (isOpen : v.isOpen = false) (reads : v.reads = []) : ReadPhase abi v

/-- What `dispatch` is given: a parsed header and a body inside the buffer. -/
structure Delivered (abi : Abi) (m : Message) : Prop extends m.Parsed abi where
  fits : Buffer.InRange 4096 20 m.bodyLength

structure ReadInv (abi : Abi) (v : ReadView) : Prop where
  phase : ReadPhase abi v
  delivered : ∀ m ∈ v.dispatched, Delivered abi m

theorem started_inv (abi : Abi) (m : Message) (cb : Bool) (addr : String) :
    ReadInv abi (view (started m cb addr)) :=
  ⟨.head none (by simp) rfl rfl,by simp [view,started]⟩

section Views
variable {abi : Abi} {s t : Connection} {msg : Message}

theorem view_write (h : s.write abi msg = some t) : view t = view s := by
  simp only [Connection.write] at h
  split_ifs at h
  · obtain ⟨bytes,_,rfl⟩ := Option.map_eq_some_iff.mp h
    rfl
  · exact Option.some.inj h ▸ rfl

def closeView (v : ReadView) : ReadView := {v with isOpen := false, reads := v.reads.map ReadOp.abort}

theorem view_onError (s : Connection) {error : ErrorCode} (h : error ≠ 0) :
    view (s.onError error) = closeView (view s) := by
  rw [Connection.onError,if_neg h]
  rfl

/-- A write completion touches the read side only by closing the socket. -/
theorem view_onWrite {error : ErrorCode} (h : s.onWrite abi error = some t) :
    view t = view s ∨ view t = closeView (view s) := by
  unfold Connection.onWrite at h
  split_ifs at h with hz
  · left
    split at h
    · exact Option.some.inj h ▸ rfl
    · obtain ⟨bytes,_,rfl⟩ := Option.map_eq_some_iff.mp h
      rfl
  · right
    rw [← Option.some.inj h,← view_onError s hz]
    rfl

/-- The events of the outgoing half, and `Stop`. -/
def writeSide : Event → Bool
  | .callWrite _ | .sendChunk _ _ | .writeReady _ | .writeFail _ _ | .runWrite _ | .callStop => true
  | .receive _ | .readReady _ | .readFail _ _ | .runRead _ _ => false

theorem view_writeSide {e : Event} (he : writeSide e = true) (hs : step abi s e = some t) :
    view t = view s ∨ view t = closeView (view s) := by
  cases e with
  | receive _ | readReady _ | readFail _ _ | runRead _ _ => cases he
  | callWrite msg => exact Or.inl (view_write hs)
  | sendChunk i n =>
      obtain ⟨op,_,_,_,_,_,rfl⟩ := step_sendChunk.mp hs
      exact Or.inl rfl
  | writeReady i =>
      obtain ⟨op,_,_,_,rfl⟩ := step_writeReady.mp hs
      exact Or.inl rfl
  | writeFail i error =>
      obtain ⟨op,_,_,_,rfl⟩ := step_writeFail.mp hs
      exact Or.inl rfl
  | runWrite i =>
      obtain ⟨op,_,_,_,hw⟩ := step_runWrite.mp hs
      have hv := view_onWrite hw
      exact hv
  | callStop => exact Or.inr (Option.some.inj hs ▸ rfl)

end Views

theorem only_read {rs : List ReadOp} {i : ℕ} {op op' : ReadOp} (h : rs = [op])
    (hop : rs[i]? = some op') : i = 0 ∧ op' = op := by
  rw [h,List.getElem?_singleton] at hop
  split_ifs at hop with hi
  exact ⟨hi,(Option.some.inj hop).symm⟩

namespace ReadPhase
variable {abi : Abi} {v : ReadView}

theorem close (h : ReadPhase abi v) : ReadPhase abi (closeView v) := by
  have habort : ∀ r : Option ErrorCode, r ≠ some 0 → (r <|> some operationAborted) ≠ some 0 := by
    intro r hr
    cases r with
    | none => simp [operationAborted]
    | some e => exact hr
  cases h with
  | head r hr reads received =>
      exact .head _ (habort r hr) (by simp only [closeView,reads]; rfl) received
  | headDone reads received => exact .headDone (by simp only [closeView,reads]; rfl) received
  | body r hr reads parsed accepted received =>
      exact .body _ (habort r hr) (by simp only [closeView,reads]; rfl) parsed accepted received
  | bodyDone reads parsed fits received =>
      exact .bodyDone (by simp only [closeView,reads]; rfl) parsed fits received
  | refused isOpen reads refused received => exact .ended rfl (by simp only [closeView,reads]; rfl)
  | ended isOpen reads => exact .ended rfl (by simp only [closeView,reads]; rfl)

theorem receive (h : ReadPhase abi v) (bytes : Bytes) :
    ReadPhase abi {v with inbox := v.inbox ++ bytes, received := v.received ++ bytes} := by
  cases h with
  | head r hr reads received => exact .head r hr reads (by simp [received])
  | headDone reads received => exact .headDone reads (by simp [received])
  | body r hr reads parsed accepted received =>
      exact .body r hr reads parsed accepted (by simp [received])
  | bodyDone reads parsed fits received => exact .bodyDone reads parsed fits (by simp [received])
  | refused isOpen reads refused received =>
      exact .refused isOpen reads refused (by simp [received])
  | ended isOpen reads => exact .ended isOpen reads

theorem readFail (h : ReadPhase abi v) {i : ℕ} {op : ReadOp} {error : ErrorCode}
    (hop : v.reads[i]? = some op) (hres : op.result = none) (he : error ≠ 0) :
    ReadPhase abi {v with reads := v.reads.set i {op with result := some error}} := by
  cases h with
  | head r hr reads received =>
      rcases only_read reads hop with ⟨rfl,rfl⟩
      exact .head (some error) (by simpa using he) (by simp [reads]) received
  | headDone reads received =>
      rcases only_read reads hop with ⟨rfl,rfl⟩
      cases hres
  | body r hr reads parsed accepted received =>
      rcases only_read reads hop with ⟨rfl,rfl⟩
      exact .body (some error) (by simpa using he) (by simp [reads]) parsed accepted received
  | bodyDone reads parsed fits received =>
      rcases only_read reads hop with ⟨rfl,rfl⟩
      cases hres
  | refused isOpen reads refused received => simp [reads] at hop
  | ended isOpen reads => simp [reads] at hop

/-- A completed read moves its bytes from the inbox into the buffer. -/
theorem readReady (h : ReadPhase abi v) {i : ℕ} {op : ReadOp} {buffer : Buffer UInt8 4096}
    (hop : v.reads[i]? = some op) (hres : op.result = none) (hlen : op.length ≤ v.inbox.length)
    (hstore : v.message.buffer.store op.offset (v.inbox.take op.length) = some buffer) :
    ReadPhase abi {v with
      message := {v.message with buffer := buffer}
      inbox := v.inbox.drop op.length
      reads := v.reads.set i {op with result := some 0}} := by
  have htake : (v.inbox.take op.length).length = op.length := by
    rw [List.length_take]
    omega
  obtain ⟨hrange,rfl⟩ := Buffer.store_eq_some.mp hstore
  cases h with
  | head r hr reads received =>
      rcases only_read reads hop with ⟨rfl,rfl⟩
      refine .headDone (by simp [reads]) ?_
      have hslice := v.message.buffer.slice_overwrite_same 0 (v.inbox.take 20) hrange
      rw [htake] at hslice
      simp only [hslice,List.take_append_drop]
      exact received
  | headDone reads received =>
      rcases only_read reads hop with ⟨rfl,rfl⟩
      cases hres
  | body r hr reads parsed accepted received =>
      rcases only_read reads hop with ⟨rfl,rfl⟩
      have hhead := v.message.buffer.slice_overwrite_before (v.inbox.take v.message.bodyLength)
        hrange (show 0 + 20 ≤ 20 by omega)
      have hbody := v.message.buffer.slice_overwrite_same 20 (v.inbox.take v.message.bodyLength)
        hrange
      rw [htake] at hbody
      rw [htake] at hrange
      refine .bodyDone (by simp [reads]) ⟨?_,?_⟩ hrange ?_
      · simp only [hhead]
        exact parsed.header
      · exact parsed.bodyLength.trans (Message.announced_of_slice hhead).symm
      · simp only [Message.wireImage_append,hhead,hbody,List.append_assoc,List.take_append_drop]
        exact received
  | bodyDone reads parsed fits received =>
      rcases only_read reads hop with ⟨rfl,rfl⟩
      cases hres
  | refused isOpen reads refused received => simp [reads] at hop
  | ended isOpen reads => simp [reads] at hop

/-- The one read whose completion is queued, by handler and result. -/
theorem ready (h : ReadPhase abi v) {i : ℕ} {op : ReadOp} {e : ErrorCode}
    (hop : v.reads[i]? = some op) (he : op.result = some e) :
    v.reads = [op] ∧ v.reads.eraseIdx i = [] ∧
      (e ≠ 0 ∨
        (e = 0 ∧ op.handler = .onReadHead ∧
          v.received = images v.dispatched ++ (v.message.buffer.slice 0 20 ++ v.inbox)) ∨
        (e = 0 ∧ op.handler = .onReadBody ∧ Delivered abi v.message ∧
          v.received = images v.dispatched ++ (v.message.wireImage ++ v.inbox))) := by
  cases h with
  | head r hr reads received =>
      rcases only_read reads hop with ⟨rfl,rfl⟩
      refine ⟨reads,by simp [reads],Or.inl ?_⟩
      intro heq
      subst heq
      exact hr he
  | headDone reads received =>
      rcases only_read reads hop with ⟨rfl,rfl⟩
      exact ⟨reads,by simp [reads],Or.inr (Or.inl ⟨(Option.some.inj he).symm,rfl,received⟩)⟩
  | body r hr reads parsed accepted received =>
      rcases only_read reads hop with ⟨rfl,rfl⟩
      refine ⟨reads,by simp [reads],Or.inl ?_⟩
      intro heq
      subst heq
      exact hr he
  | bodyDone reads parsed fits received =>
      rcases only_read reads hop with ⟨rfl,rfl⟩
      exact ⟨reads,by simp [reads],
        Or.inr (Or.inr ⟨(Option.some.inj he).symm,rfl,⟨parsed,fits⟩,received⟩)⟩
  | refused isOpen reads refused received => simp [reads] at hop
  | ended isOpen reads => simp [reads] at hop

end ReadPhase

/-- `OnReadHead` on the view, by the three ways it can end. -/
theorem view_onReadHead (abi : Abi) (s : Connection) (e : ErrorCode) (hreads : s.reads = []) :
    (s.isOpen = false ∧ s.onReadHead abi e = s) ∨
      (s.isOpen = true ∧ e ≠ 0 ∧ view (s.onReadHead abi e) = closeView (view s)) ∨
      (s.isOpen = true ∧ e = 0 ∧ ¬ Accepted abi s.message ∧
        s.onReadHead abi e = {s with message := {s.message with
          header := Header.ofImage abi.order (s.message.buffer.slice 0 20)}}) ∨
      (s.isOpen = true ∧ e = 0 ∧ Accepted abi s.message ∧
        s.onReadHead abi e = {s with
          message := {s.message with
            header := Header.ofImage abi.order (s.message.buffer.slice 0 20)
            bodyLength := s.message.announced abi}
          reads := [⟨.onReadBody,20,s.message.announced abi,none⟩]}) := by
  unfold Connection.onReadHead
  cases ho : s.isOpen with
  | false => exact Or.inl ⟨rfl,rfl⟩
  | true =>
      right
      by_cases he : e = 0
      · right
        subst he
        by_cases ha : Accepted abi s.message
        · right
          refine ⟨rfl,rfl,ha,?_⟩
          rw [Message.parseHeader_accepts ha]
          simp [Connection.readBody,Connection.asyncRead,Message.data,Message.dataLength,hreads]
        · left
          refine ⟨rfl,rfl,ha,?_⟩
          rw [Message.parseHeader_refuses (Nat.lt_of_not_le ha)]
          simp [Connection.onError]
      · left
        refine ⟨rfl,he,?_⟩
        simp only [Bool.not_true,Bool.false_eq_true,if_false,if_neg he]
        exact view_onError s he

/-- `OnReadBody` on the view: it dispatches and reads the next header, or
closes. -/
theorem view_onReadBody {abi : Abi} {s t : Connection} {e : ErrorCode} {reply : Option Message}
    (hreads : s.reads = []) (h : s.onReadBody abi e reply = some t) :
    (e ≠ 0 ∧ view t = closeView (view s)) ∨
      (e = 0 ∧ view t = {view s with
        dispatched := s.dispatched ++ [s.message]
        reads := [⟨.onReadHead,0,20,if s.isOpen then none else some badDescriptor⟩]}) := by
  unfold Connection.onReadBody at h
  split_ifs at h with he
  · right
    refine ⟨he,?_⟩
    have hread : ∀ u : Connection,
        view u = view {s with dispatched := s.dispatched ++ [s.message]} →
        view u.readHead = {view s with
          dispatched := s.dispatched ++ [s.message]
          reads := [⟨.onReadHead,0,20,if s.isOpen then none else some badDescriptor⟩]} := by
      intro u hu
      simp only [view,ReadView.mk.injEq] at hu
      simp only [view,Connection.readHead,Connection.asyncRead,hu,hreads,Message.headerLength_eq,
        List.nil_append]
    cases reply with
    | none => exact Option.some.inj h ▸ hread _ rfl
    | some msg =>
        obtain ⟨u,hu,rfl⟩ := Option.map_eq_some_iff.mp h
        exact hread u (view_write hu)
  · left
    rw [← Option.some.inj h]
    exact ⟨he,view_onError s he⟩

namespace ReadInv
variable {abi : Abi} {s t : Connection}

theorem closed (h : ReadInv abi (view s)) (ht : view t = closeView (view s)) :
    ReadInv abi (view t) := by
  rw [ht]
  exact ⟨h.phase.close,h.delivered⟩

theorem runHead (h : ReadInv abi (view s)) {i : ℕ} {op : ReadOp} {e : ErrorCode}
    (hop : s.reads[i]? = some op) (he : op.result = some e) (hh : op.handler = .onReadHead) :
    ReadInv abi (view (Connection.onReadHead abi e {s with reads := s.reads.eraseIdx i})) := by
  obtain ⟨_,hnil,hcase⟩ := h.phase.ready hop he
  have hd := h.delivered
  rw [show s.reads.eraseIdx i = [] from hnil]
  rcases view_onReadHead abi {s with reads := []} e rfl with
    ⟨ho,hs⟩ | ⟨ho,hne,hs⟩ | ⟨ho,hz,ha,hs⟩ | ⟨ho,hz,ha,hs⟩
  · rw [hs]
    exact ⟨.ended ho rfl,hd⟩
  · rw [hs]
    exact ⟨.ended rfl rfl,hd⟩
  all_goals
    rcases hcase with hne | ⟨_,_,hrec⟩ | ⟨_,hb,_⟩
    · exact absurd hz hne
    · rw [hs]
      first
        | exact ⟨.refused ho rfl ha hrec,hd⟩
        | exact ⟨.body none (by simp) rfl ⟨rfl,rfl⟩ ha hrec,hd⟩
    · rw [hh] at hb
      cases hb

theorem runBody (h : ReadInv abi (view s)) {i : ℕ} {op : ReadOp} {e : ErrorCode}
    {reply : Option Message} (hop : s.reads[i]? = some op) (he : op.result = some e)
    (hh : op.handler = .onReadBody)
    (ht : Connection.onReadBody abi e reply {s with reads := s.reads.eraseIdx i} = some t) :
    ReadInv abi (view t) := by
  obtain ⟨_,hnil,hcase⟩ := h.phase.ready hop he
  rcases view_onReadBody hnil ht with ⟨_,hv⟩ | ⟨hz,hv⟩
  · rw [hv]
    exact ⟨.ended rfl (List.map_eq_nil_iff.mpr hnil),h.delivered⟩
  · rcases hcase with hne | ⟨_,hb,_⟩ | ⟨_,_,hm,hrec⟩
    · exact absurd hz hne
    · rw [hh] at hb
      cases hb
    · rw [hv]
      refine ⟨.head (if s.isOpen then none else some badDescriptor) ?_ rfl ?_,?_⟩
      · split_ifs <;> simp [badDescriptor]
      · simp only [images_concat,List.append_assoc]
        exact hrec
      · intro m hmem
        rcases List.mem_append.mp hmem with hmem | hmem
        · exact h.delivered m hmem
        · rw [List.mem_singleton.mp hmem]
          exact hm

theorem step (h : ReadInv abi (view s)) {e : Event}
    (hs : ConnectionState.step abi s e = some t) : ReadInv abi (view t) := by
  cases e with
  | receive bytes => exact Option.some.inj hs ▸ ⟨h.phase.receive bytes,h.delivered⟩
  | readReady i =>
      obtain ⟨op,buffer,hop,_,hres,hlen,hstore,rfl⟩ := step_readReady.mp hs
      exact ⟨h.phase.readReady hop hres hlen hstore,h.delivered⟩
  | readFail i error =>
      obtain ⟨op,hop,hres,he,rfl⟩ := step_readFail.mp hs
      exact ⟨h.phase.readFail hop hres he,h.delivered⟩
  | runRead i reply =>
      obtain ⟨op,e,hop,he,⟨hh,rfl⟩ | ⟨hh,ht⟩⟩ := step_runRead.mp hs
      · exact h.runHead hop he hh
      · exact h.runBody hop he hh ht
  | callWrite _ | sendChunk _ _ | writeReady _ | writeFail _ _ | runWrite _ | callStop =>
      rcases view_writeSide rfl hs with hv | hv
      · rw [hv]
        exact h
      · exact h.closed hv

end ReadInv
end SindiaRpc.ReadLoop
