import SindiaRpc.ReadLoop
import SindiaRpc.LengthFraming
import SindiaRpc.ConnectionWrites

/-!
# Streams and the messages read from them

On 64-bit builds the read loop is the reference reader of the frame grammar: a
20-byte header announcing at most 4076 body bytes, and those bytes. The loop
reaches a state in which it waits for bytes that have not come, or has stopped
at a header it refuses, and there its messages are the frames of the stream.
Frames built by the constructor and the four setters come back unchanged.
-/
namespace SindiaRpc.StreamReading
open MessageFrames ConnectionState GuardedRuns ReadLoop ListUpdates

/-- The grammar of the reader, for any build. -/
def framing (abi : Abi) : Framing UInt8 where
  headLength := 20
  headLength_pos := by decide
  bodyLength hd :=
    if abi.size ((Header.wordAt abi.order hd 4).toNat + 20) ≤ 4096
    then some (Header.wordAt abi.order hd 4).toNat else none

/-- The length word of a header at the front of `bs`. -/
def lengthField (o : ByteOrder) (bs : Bytes) : ℕ := (Header.wordAt o (bs.take 20) 4).toNat

theorem framing_bodyLength (o : ByteOrder) (bs : Bytes) :
    (framing (lp64 o)).bodyLength (bs.take 20) =
      if lengthField o bs ≤ 4076 then some (lengthField o bs) else none := by
  have hlt : lengthField o bs < 2 ^ 32 := UInt32.toNat_lt _
  have hsize : (lp64 o).size (lengthField o bs + 20) = lengthField o bs + 20 :=
    (lp64 o).size_of_wide (lp64_wide o) (by omega)
  change (if (lp64 o).size (lengthField o bs + 20) ≤ 4096 then _ else _) = _
  rw [hsize]
  by_cases h : lengthField o bs ≤ 4076
  · rw [if_pos h,if_pos (by omega)]
    rfl
  · rw [if_neg h,if_neg (by omega)]

section Delivered
variable {abi : Abi} {m : Message}

theorem wireImage_take (m : Message) : m.wireImage.take 20 = m.buffer.slice 0 20 := by
  rw [Message.wireImage_append,List.take_left']
  exact Buffer.length_slice (by simp [Buffer.InRange])

theorem wireImage_drop (m : Message) : m.wireImage.drop 20 = m.buffer.slice 20 m.bodyLength := by
  rw [Message.wireImage_append,List.drop_left']
  exact Buffer.length_slice (by simp [Buffer.InRange])

theorem length_wireImage (h : Delivered abi m) : m.wireImage.length = 20 + m.bodyLength := by
  apply Buffer.length_slice
  have := h.fits
  unfold Buffer.InRange at this ⊢
  omega

/-- A dispatched message is one frame of the grammar. -/
theorem isFrame_wireImage (h : Delivered abi m) : (framing abi).IsFrame m.wireImage := by
  refine ⟨m.bodyLength,?_,length_wireImage h⟩
  have hfits := h.fits
  unfold Buffer.InRange at hfits
  change (if abi.size ((Header.wordAt abi.order (m.wireImage.take 20) 4).toNat + 20) ≤ 4096
    then some (Header.wordAt abi.order (m.wireImage.take 20) 4).toNat else none) = _
  rw [wireImage_take]
  change (if abi.size (m.announced abi + 20) ≤ 4096 then some (m.announced abi) else none) = _
  rw [← h.bodyLength,abi.size_of_lt (by omega),if_pos (by omega)]

theorem dataString_wireImage (h : Delivered abi m) : m.dataString = some (m.wireImage.drop 20) := by
  rw [wireImage_drop]
  refine Buffer.load_eq_some.mpr ⟨?_,?_⟩
  · simpa [Message.data,Message.dataLength] using h.fits
  · simp [Message.data,Message.dataLength]

end Delivered

/-! ### Runs without errors -/

/-- No read or write fails and nobody calls `Stop`. -/
def Smooth : Event → Prop
  | .readFail _ _ | .writeFail _ _ | .callStop => False
  | _ => True

instance : ∀ e, Decidable (Smooth e)
  | .readFail _ _ | .writeFail _ _ | .callStop => inferInstanceAs (Decidable False)
  | .receive _ | .readReady _ | .runRead _ _ | .callWrite _ | .sendChunk _ _ | .writeReady _
  | .runWrite _ => inferInstanceAs (Decidable True)

def NoError (r : Option ErrorCode) : Prop := ∀ e ∈ r, e = 0

structure Healthy (s : Connection) : Prop where
  isOpen : s.isOpen = true
  reads : ∀ op ∈ s.reads, NoError op.result
  writes : ∀ op ∈ s.writes, NoError op.bound ∧ NoError op.result

theorem started_healthy (m : Message) (cb : Bool) (addr : String) :
    Healthy (started m cb addr) := by
  refine ⟨rfl,?_,?_⟩
  · intro op hop e he
    rw [List.mem_singleton.mp hop] at he
    cases he
  · intro op hop
    cases hop

/-- Waiting for bytes that have not come, or not reading at all. -/
def Quiescent (s : Connection) : Prop :=
  ∀ op ∈ s.reads, op.result = none ∧ s.inbox.length < op.length

instance (s : Connection) : Decidable (Quiescent s) := List.decidableBAll _ _

namespace Healthy
variable {abi : Abi} {s t : Connection}

theorem asyncRead (h : Healthy s) (k : ReadHandler) (off len : ℕ) :
    Healthy (s.asyncRead k off len) := by
  refine ⟨h.isOpen,?_,h.writes⟩
  intro op hop
  rcases List.mem_append.mp hop with hop | hop
  · exact h.reads op hop
  · rw [List.mem_singleton.mp hop,if_pos h.isOpen]
    intro e he
    cases he

theorem asyncWrite (h : Healthy s) (msg : Message) (bytes : Bytes) {bound : Option ErrorCode}
    (hb : NoError bound) : Healthy (s.asyncWrite msg bytes bound) := by
  refine ⟨h.isOpen,h.reads,?_⟩
  intro op hop
  rcases List.mem_append.mp hop with hop | hop
  · exact h.writes op hop
  · rw [List.mem_singleton.mp hop,if_pos h.isOpen]
    refine ⟨hb,?_⟩
    intro e he
    cases he

theorem write (h : Healthy s) {msg : Message} (hw : s.write abi msg = some t) : Healthy t := by
  simp only [Connection.write] at hw
  split_ifs at hw
  · obtain ⟨bytes,_,rfl⟩ := Option.map_eq_some_iff.mp hw
    apply asyncWrite
    · exact ⟨h.isOpen,h.reads,h.writes⟩
    · intro e he
      cases he
  · exact Option.some.inj hw ▸ ⟨h.isOpen,h.reads,h.writes⟩

theorem onReadHead (h : Healthy s) : Healthy (s.onReadHead abi 0) := by
  unfold Connection.onReadHead
  split_ifs
  · exact h
  · split
    · exact ⟨h.isOpen,h.reads,h.writes⟩
    · apply asyncRead
      exact ⟨h.isOpen,h.reads,h.writes⟩
  · exact absurd rfl ‹_›

theorem onReadBody (h : Healthy s) {reply : Option Message}
    (hr : s.onReadBody abi 0 reply = some t) : Healthy t := by
  have hd : Healthy {s with dispatched := s.dispatched ++ [s.message]} :=
    ⟨h.isOpen,h.reads,h.writes⟩
  simp only [Connection.onReadBody,if_pos] at hr
  cases reply with
  | none => exact Option.some.inj hr ▸ hd.asyncRead _ _ _
  | some msg =>
      obtain ⟨u,hu,rfl⟩ := Option.map_eq_some_iff.mp hr
      exact (hd.write hu).asyncRead _ _ _

theorem onWrite (h : Healthy s) (hr : s.onWrite abi 0 = some t) : Healthy t := by
  simp only [Connection.onWrite,if_pos] at hr
  split at hr
  · exact Option.some.inj hr ▸ h
  · obtain ⟨bytes,_,rfl⟩ := Option.map_eq_some_iff.mp hr
    apply asyncWrite
    · exact ⟨h.isOpen,h.reads,h.writes⟩
    · intro e he
      exact (Option.some.inj he).symm

theorem step (h : Healthy s) {e : Event} (he : Smooth e)
    (hs : ConnectionState.step abi s e = some t) : Healthy t := by
  have hzero : NoError (some 0) := fun e he => (Option.some.inj he).symm
  cases e with
  | receive bytes => exact Option.some.inj hs ▸ ⟨h.isOpen,h.reads,h.writes⟩
  | readReady i =>
      obtain ⟨op,buffer,_,_,_,_,_,rfl⟩ := step_readReady.mp hs
      exact ⟨h.isOpen,forall_mem_set h.reads hzero,h.writes⟩
  | readFail i error => exact he.elim
  | runRead i reply =>
      obtain ⟨op,e,hop,hres,hrun⟩ := step_runRead.mp hs
      have hz : e = 0 := h.reads op (List.mem_of_getElem? hop) e hres
      have hrest : Healthy {s with reads := s.reads.eraseIdx i} :=
        ⟨h.isOpen,fun op' hop' => h.reads op' (List.mem_of_mem_eraseIdx hop'),h.writes⟩
      subst hz
      rcases hrun with ⟨_,rfl⟩ | ⟨_,hb⟩
      · exact hrest.onReadHead
      · exact hrest.onReadBody hb
  | callWrite msg => exact h.write hs
  | sendChunk i n =>
      obtain ⟨op,hop,_,hres,_,_,rfl⟩ := step_sendChunk.mp hs
      have hold := h.writes op (List.mem_of_getElem? hop)
      exact ⟨h.isOpen,h.reads,forall_mem_set h.writes hold⟩
  | writeReady i =>
      obtain ⟨op,hop,_,_,rfl⟩ := step_writeReady.mp hs
      have hold := h.writes op (List.mem_of_getElem? hop)
      exact ⟨h.isOpen,h.reads,forall_mem_set h.writes ⟨hold.1,hzero⟩⟩
  | writeFail i error => exact he.elim
  | runWrite i =>
      obtain ⟨op,e,hop,hres,hw⟩ := step_runWrite.mp hs
      obtain ⟨hb,hr⟩ := h.writes op (List.mem_of_getElem? hop)
      have hz : op.bound.getD e = 0 := by
        cases hbound : op.bound with
        | none => exact hr e hres
        | some b => exact hb b hbound
      have hrest : Healthy {s with writes := s.writes.eraseIdx i} :=
        ⟨h.isOpen,h.reads,fun op' hop' => h.writes op' (List.mem_of_mem_eraseIdx hop')⟩
      rw [hz] at hw
      exact hrest.onWrite hw
  | callStop => exact he.elim

end Healthy

/-! ### The loop comes to rest -/

/-- Bytes still to be consumed count four; the phase counts the handler runs
before the next bytes are needed. -/
def rank (s : Connection) : ℕ :=
  4*s.inbox.length + match s.reads with
    | [⟨.onReadHead,_,_,some _⟩] => 3
    | [⟨.onReadBody,_,_,none⟩] => 2
    | [⟨.onReadBody,_,_,some _⟩] => 1
    | _ => 0

theorem noError_none {r : Option ErrorCode} (h : NoError r) (hr : r ≠ some 0) : r = none := by
  cases r with
  | none => rfl
  | some e => exact absurd (congrArg some (h e rfl)) hr

/-- A read whose bytes are there completes. -/
theorem readReady_enabled {abi : Abi} {s : Connection} {k : ReadHandler} {off len : ℕ}
    (ho : s.isOpen = true) (hreads : s.reads = [⟨k,off,len,none⟩]) (hlen : len ≤ s.inbox.length)
    (hfit : Buffer.InRange 4096 off len) :
    ∃ buffer, step abi s (.readReady 0) = some {s with
      message := {s.message with buffer := buffer}
      inbox := s.inbox.drop len
      reads := [⟨k,off,len,some 0⟩]} := by
  have htake : (s.inbox.take len).length = len := by
    rw [List.length_take]
    omega
  have hr : Buffer.InRange 4096 off (s.inbox.take len).length := by rwa [htake]
  refine ⟨s.message.buffer.overwrite off (s.inbox.take len) hr,?_⟩
  apply step_readReady.mpr
  refine ⟨⟨k,off,len,none⟩,_,by rw [hreads]; rfl,ho,rfl,hlen,Buffer.store_eq_some.mpr ⟨hr,rfl⟩,?_⟩
  rw [hreads]
  rfl

/-- Unless the loop is at rest it has a next step of its own. -/
theorem advance {abi : Abi} (hw : 32 < abi.sizeBits) {s : Connection}
    (hinv : ReadInv abi (view s)) (hs : Healthy s) (hq : ¬ Quiescent s) :
    ∃ e t, Smooth e ∧ step abi s e = some t ∧ t.received = s.received ∧ rank t < rank s := by
  cases hinv.phase with
  | head r hr reads received =>
      have hreads : s.reads = [⟨.onReadHead,0,20,r⟩] := reads
      have hnone := noError_none (hs.reads ⟨.onReadHead,0,20,r⟩ (by simp [hreads])) hr
      subst hnone
      have hlen : 20 ≤ s.inbox.length := by simpa [Quiescent,hreads] using hq
      obtain ⟨buffer,ht⟩ := readReady_enabled hs.isOpen hreads hlen (by decide)
      refine ⟨.readReady 0,_,trivial,ht,rfl,?_⟩
      simp only [rank,hreads,List.length_drop]
      omega
  | headDone reads received =>
      have hreads : s.reads = [⟨.onReadHead,0,20,some 0⟩] := reads
      refine ⟨.runRead 0 none,_,trivial,
        step_runRead.mpr ⟨_,0,by rw [hreads]; rfl,rfl,Or.inl ⟨rfl,rfl⟩⟩,?_⟩
      have hnil : s.reads.eraseIdx 0 = [] := by rw [hreads]; rfl
      rw [hnil]
      rcases view_onReadHead abi {s with reads := []} 0 rfl with
        ⟨ho,_⟩ | ⟨_,hne,_⟩ | ⟨_,_,_,ht⟩ | ⟨_,_,_,ht⟩
      · exact absurd (hs.isOpen.symm.trans ho) (by simp)
      · exact absurd rfl hne
      · rw [ht]
        refine ⟨rfl,?_⟩
        simp only [rank,hreads]
        omega
      · rw [ht]
        refine ⟨rfl,?_⟩
        simp only [rank,hreads]
        omega
  | body r hr reads parsed accepted received =>
      have hreads : s.reads = [⟨.onReadBody,20,s.message.bodyLength,r⟩] := reads
      have hnone := noError_none
        (hs.reads ⟨.onReadBody,20,s.message.bodyLength,r⟩ (by simp [hreads])) hr
      subst hnone
      have hlen : s.message.bodyLength ≤ s.inbox.length := by simpa [Quiescent,hreads] using hq
      have hfit : Buffer.InRange 4096 20 s.message.bodyLength := by
        have hacc : abi.size (s.message.announced abi + 20) ≤ 4096 := accepted
        rw [Message.size_announced abi hw] at hacc
        rw [show s.message.bodyLength = s.message.announced abi from parsed.bodyLength]
        unfold Buffer.InRange
        omega
      obtain ⟨buffer,ht⟩ := readReady_enabled hs.isOpen hreads hlen hfit
      refine ⟨.readReady 0,_,trivial,ht,rfl,?_⟩
      simp only [rank,hreads,List.length_drop]
      omega
  | bodyDone reads parsed fits received =>
      have hreads : s.reads = [⟨.onReadBody,20,s.message.bodyLength,some 0⟩] := reads
      refine ⟨.runRead 0 none,_,trivial,
        step_runRead.mpr ⟨_,0,by rw [hreads]; rfl,rfl,Or.inr ⟨rfl,rfl⟩⟩,rfl,?_⟩
      simp only [rank,hreads,Connection.readHead,Connection.asyncRead,hs.isOpen,if_true]
      simp
  | refused isOpen reads refused received =>
      have hreads : s.reads = [] := reads
      exact absurd (by simp [Quiescent,hreads]) hq
  | ended isOpen reads =>
      have hreads : s.reads = [] := reads
      exact absurd (by simp [Quiescent,hreads]) hq

theorem comes_to_rest {abi : Abi} (hw : 32 < abi.sizeBits) {s : Connection}
    (hinv : ReadInv abi (view s)) (hs : Healthy s) :
    ∃ es t, (∀ e ∈ es, Smooth e) ∧ exec (step abi) s es = some t ∧ t.received = s.received ∧
      Quiescent t := by
  induction hn : rank s using Nat.strong_induction_on generalizing s with
  | _ n ih =>
    by_cases hq : Quiescent s
    · exact ⟨[],s,by simp,rfl,rfl,hq⟩
    · obtain ⟨e,t,he,ht,hrec,hlt⟩ := advance hw hinv hs hq
      obtain ⟨es,u,hes,hrun,hrec',hqu⟩ :=
        ih (rank t) (hn ▸ hlt) (hinv.step ht) (hs.step he ht) rfl
      refine ⟨e :: es,u,?_,(exec_cons_eq_some _).mpr ⟨t,ht,hrun⟩,hrec'.trans hrec,hqu⟩
      intro f hf
      rcases List.mem_cons.mp hf with rfl | hf
      · exact he
      · exact hes f hf

/-- Whatever the stream, a run reads it to the end. -/
theorem stream_is_read {abi : Abi} (hw : 32 < abi.sizeBits) (m : Message) (cb : Bool)
    (addr : String) (input : Bytes) :
    ∃ es s, (∀ e ∈ es, Smooth e) ∧ exec (step abi) (started m cb addr) es = some s ∧
      s.received = input ∧ Quiescent s := by
  let s₀ : Connection := {started m cb addr with inbox := input, received := input}
  have hstep : step abi (started m cb addr) (.receive input) = some s₀ := rfl
  obtain ⟨es,t,hes,hrun,hrec,hq⟩ := comes_to_rest hw
    ((started_inv abi m cb addr).step hstep)
    ((started_healthy m cb addr).step (e := .receive input) trivial hstep)
  refine ⟨.receive input :: es,t,?_,(exec_cons_eq_some _).mpr ⟨s₀,hstep,hrun⟩,hrec,hq⟩
  intro e he
  rcases List.mem_cons.mp he with rfl | he
  · trivial
  · exact hes e he

section Runs
variable {abi : Abi} {m : Message} {cb : Bool} {addr : String} {es : List Event} {s : Connection}

theorem run_inv (h : exec (step abi) (started m cb addr) es = some s) : ReadInv abi (view s) := by
  apply exec_preserves (step abi) (P := fun s => ReadInv abi (view s))
    (fun u e v hu hv => hu.step hv) (started_inv abi m cb addr) h

theorem run_healthy (hes : ∀ e ∈ es, Smooth e)
    (h : exec (step abi) (started m cb addr) es = some s) : Healthy s := by
  apply exec_invariant (step abi) (P := Healthy) (A := Smooth)
    (fun u e v he hu hv => hu.step he hv) hes (started_healthy m cb addr) h

/-- What is left of the stream where the loop rests. -/
theorem rest_stuck (hinv : ReadInv abi (view s)) (hs : Healthy s)
    (hq : Quiescent s) : ∃ rest, s.received = images s.dispatched ++ rest ∧
      ((framing abi).Incomplete rest ∨ (framing abi).Refused rest ∧ s.reads = []) := by
  have hslice : (s.message.buffer.slice 0 20).length = 20 :=
    Buffer.length_slice (by simp [Buffer.InRange])
  have hheader : ∀ bs : Bytes, (framing abi).bodyLength
      ((s.message.buffer.slice 0 20 ++ bs).take 20) =
        if Accepted abi s.message then some (s.message.announced abi) else none := by
    intro bs
    rw [List.take_left' hslice]
    rfl
  cases hinv.phase with
  | head r hr reads received =>
      have hreads : s.reads = [⟨.onReadHead,0,20,r⟩] := reads
      have hlen : s.inbox.length < 20 := (hq ⟨.onReadHead,0,20,r⟩ (by simp [hreads])).2
      exact ⟨s.inbox,received,Or.inl (Or.inl hlen)⟩
  | headDone reads received =>
      have hreads : s.reads = [⟨.onReadHead,0,20,some 0⟩] := reads
      cases (hq ⟨.onReadHead,0,20,some 0⟩ (by simp [hreads])).1
  | body r hr reads parsed accepted received =>
      have hreads : s.reads = [⟨.onReadBody,20,s.message.bodyLength,r⟩] := reads
      have hlen : s.inbox.length < s.message.bodyLength :=
        (hq ⟨.onReadBody,20,s.message.bodyLength,r⟩ (by simp [hreads])).2
      refine ⟨_,received,Or.inl (Or.inr ⟨s.message.announced abi,?_,?_⟩)⟩
      · exact (hheader s.inbox).trans (if_pos accepted)
      · have hbody : s.message.bodyLength = s.message.announced abi := parsed.bodyLength
        change (s.message.buffer.slice 0 20 ++ s.inbox).length < 20 + _
        rw [List.length_append,hslice]
        omega
  | bodyDone reads parsed fits received =>
      have hreads : s.reads = [⟨.onReadBody,20,s.message.bodyLength,some 0⟩] := reads
      cases (hq ⟨.onReadBody,20,s.message.bodyLength,some 0⟩ (by simp [hreads])).1
  | refused isOpen reads refused received =>
      refine ⟨_,received,Or.inr ⟨⟨?_,?_⟩,reads⟩⟩
      · change 20 ≤ (s.message.buffer.slice 0 20 ++ s.inbox).length
        rw [List.length_append,hslice]
        omega
      · exact (hheader s.inbox).trans (if_neg refused)
  | ended isOpen reads => exact absurd (hs.isOpen.symm.trans isOpen) (by simp)

/-- Without an outstanding read nothing is read or dispatched any more. -/
theorem idle_forever {fs : List Event} {t : Connection} (hs : s.reads = [])
    (h : exec (step abi) s fs = some t) : t.reads = [] ∧ t.dispatched = s.dispatched := by
  apply exec_preserves (step abi) (P := fun u => u.reads = [] ∧ u.dispatched = s.dispatched)
    ?_ ⟨hs,rfl⟩ h
  intro u e v hu hv
  cases e with
  | receive bytes => exact Option.some.inj hv ▸ hu
  | readReady i =>
      obtain ⟨op,_,hop,_⟩ := step_readReady.mp hv
      simp [hu.1] at hop
  | readFail i error =>
      obtain ⟨op,hop,_⟩ := step_readFail.mp hv
      simp [hu.1] at hop
  | runRead i reply =>
      obtain ⟨op,_,hop,_⟩ := step_runRead.mp hv
      simp [hu.1] at hop
  | callWrite _ | sendChunk _ _ | writeReady _ | writeFail _ _ | runWrite _ | callStop =>
      rcases view_writeSide rfl hv with hview | hview
      · exact ⟨(congrArg ReadView.reads hview).trans hu.1,
          (congrArg ReadView.dispatched hview).trans hu.2⟩
      · refine ⟨?_,(congrArg ReadView.dispatched hview).trans hu.2⟩
        have hreads : v.reads = u.reads.map ReadOp.abort := congrArg ReadView.reads hview
        rw [hreads,hu.1,List.map_nil]

end Runs

/-! ### The grammar of 64-bit builds -/

/-- A message as the wire has it: its 20 header bytes, then the body they
announce. -/
structure WireMessage (o : ByteOrder) (m : Message) : Prop where
  header : m.header = Header.ofImage o (m.wireImage.take 20)
  length : m.wireImage.length = 20 + m.header.length.toNat
  dataLength : m.dataLength = m.header.length.toNat
  body : m.dataString = some (m.wireImage.drop 20)

/-- Shorter than the one complete frame it starts. -/
def Unfinished (o : ByteOrder) (rest : Bytes) : Prop :=
  rest.length < 20 ∨ lengthField o rest ≤ 4076 ∧ rest.length < 20 + lengthField o rest

/-- A complete header that announces too much. -/
def Oversized (o : ByteOrder) (rest : Bytes) : Prop :=
  20 ≤ rest.length ∧ 4076 < lengthField o rest

theorem wireMessage {o : ByteOrder} {m : Message} (h : Delivered (lp64 o) m) :
    WireMessage o m := by
  have hlen : m.bodyLength = m.header.length.toNat := by
    rw [h.header,h.bodyLength]
    rfl
  refine ⟨?_,?_,hlen,dataString_wireImage h⟩
  · rw [wireImage_take]
    exact h.header
  · rw [length_wireImage h,hlen]

theorem unfinished {o : ByteOrder} {rest : Bytes} (h : (framing (lp64 o)).Incomplete rest) :
    Unfinished o rest := by
  rcases h with h | ⟨n,hn,hlt⟩
  · exact Or.inl h
  · rw [show (framing (lp64 o)).headLength = 20 from rfl,framing_bodyLength] at hn
    split_ifs at hn with hle
    obtain rfl := Option.some.inj hn
    exact Or.inr ⟨hle,hlt⟩

theorem oversized {o : ByteOrder} {rest : Bytes} (h : (framing (lp64 o)).Refused rest) :
    Oversized o rest := by
  obtain ⟨hlen,hn⟩ := h
  rw [show (framing (lp64 o)).headLength = 20 from rfl,framing_bodyLength] at hn
  split_ifs at hn with hle
  exact ⟨hlen,by omega⟩

/-- Where an error-free run rests, its messages are those of the reference
reader. -/
theorem rest_split {o : ByteOrder} {m : Message} {cb : Bool} {addr : String} {es : List Event}
    {s : Connection} (hes : ∀ e ∈ es, Smooth e)
    (hrun : exec (step (lp64 o)) (started m cb addr) es = some s) (hq : Quiescent s) :
    ∃ rest, s.received = images s.dispatched ++ rest ∧ (∀ d ∈ s.dispatched, WireMessage o d) ∧
      (framing (lp64 o)).split s.received = (s.dispatched.map Message.wireImage,rest) ∧
      (Unfinished o rest ∨ Oversized o rest ∧ s.reads = []) := by
  have hinv := run_inv hrun
  have hdel : ∀ d ∈ s.dispatched, Delivered (lp64 o) d := hinv.delivered
  obtain ⟨rest,hrec,hstuck⟩ := rest_stuck hinv (run_healthy hes hrun) hq
  refine ⟨rest,hrec,fun d hd => wireMessage (hdel d hd),?_,?_⟩
  · apply Framing.split_eq _ _ (hstuck.imp id And.left) hrec
    intro f hf
    obtain ⟨d,hd,rfl⟩ := List.mem_map.mp hf
    exact isFrame_wireImage (hdel d hd)
  · rcases hstuck with hinc | ⟨href,hreads⟩
    · exact Or.inl (unfinished hinc)
    · exact Or.inr ⟨oversized href,hreads⟩

/-- Every stream is read to the end, and whenever an error-free run rests, the
stream is the dispatched messages followed by an unfinished frame or by an
oversized header, behind which nothing is ever dispatched. -/
theorem reads_frame_grammar (o : ByteOrder) (m : Message) (cb : Bool) (addr : String) :
    (∀ input, ∃ es s, (∀ e ∈ es, Smooth e) ∧
      exec (step (lp64 o)) (started m cb addr) es = some s ∧ s.received = input ∧ Quiescent s) ∧
    ∀ es s, (∀ e ∈ es, Smooth e) → exec (step (lp64 o)) (started m cb addr) es = some s →
      Quiescent s →
      ∃ rest, s.received = images s.dispatched ++ rest ∧ (∀ d ∈ s.dispatched, WireMessage o d) ∧
        (framing (lp64 o)).split s.received = (s.dispatched.map Message.wireImage,rest) ∧
        (Unfinished o rest ∨ Oversized o rest ∧
          ∀ fs t, exec (step (lp64 o)) s fs = some t → t.dispatched = s.dispatched) := by
  refine ⟨stream_is_read (lp64_wide o) m cb addr,?_⟩
  intro es s hes hrun hq
  obtain ⟨rest,hrec,hwire,hsplit,hrest⟩ := rest_split hes hrun hq
  refine ⟨rest,hrec,hwire,hsplit,?_⟩
  rcases hrest with hshort | ⟨hsize,hreads⟩
  · exact Or.inl hshort
  · exact Or.inr ⟨hsize,fun fs t ht => (idle_forever hreads ht).2⟩

/-- One frame and the first byte of another. -/
def readingRun : List Event :=
  [.receive ((sample 1).frame (lp64 .little) ++ [7]),.readReady 0,.runRead 0 none,.readReady 0,
    .callWrite (sample 2),.runRead 0 none]

theorem reads_frame_grammar_sample :
    ∃ s, exec (step (lp64 .little)) (started .empty true "") readingRun = some s ∧
      ∃ rest, s.received = images s.dispatched ++ rest ∧
        (∀ d ∈ s.dispatched, WireMessage .little d) ∧
        (framing (lp64 .little)).split s.received = (s.dispatched.map Message.wireImage,rest) ∧
        (Unfinished .little rest ∨ Oversized .little rest ∧
          ∀ fs t, exec (step (lp64 .little)) s fs = some t → t.dispatched = s.dispatched) := by
  have hrun : ∃ s ∈ exec (step (lp64 .little)) (started .empty true "") readingRun,
      Quiescent s := by decide
  obtain ⟨s,hs,hq⟩ := hrun
  exact ⟨s,hs,(reads_frame_grammar .little .empty true "").2 readingRun s (by decide) hs hq⟩

/-! ### Round trip -/

/-- The arguments of one constructor call and its four setters. -/
structure Outgoing where
  data : Bytes
  type : UInt32
  id : UInt32
  hash : UInt32
  error : UInt32
  deriving DecidableEq

def Outgoing.build (o : ByteOrder) (x : Outgoing) : Option Message :=
  Message.build o x.data x.type x.id x.hash x.error

/-- What a receiver can read off a message. -/
structure Content where
  type : ℕ
  id : ℕ
  hash : ℕ
  error : ℕ
  dataLength : ℕ
  body : Option Bytes
  deriving DecidableEq

def content (m : Message) : Content :=
  ⟨m.getType,m.getId,m.getHash,m.getErrcode,m.dataLength,m.dataString⟩

def Outgoing.content (x : Outgoing) : Content :=
  ⟨x.type.toNat,x.id.toNat,x.hash.toNat,x.error.toNat,x.data.length,some x.data⟩

theorem build_all (o : ByteOrder) {xs : List Outgoing} (hx : ∀ x ∈ xs, x.data.length ≤ 4076) :
    ∃ msgs, List.Forall₂ (fun x m => Outgoing.build o x = some m) xs msgs := by
  induction xs with
  | nil => exact ⟨[],.nil⟩
  | cons x xs ih =>
      obtain ⟨msgs,hmsgs⟩ := ih fun y hy => hx y (by simp [hy])
      cases hm : x.build o with
      | none =>
          have hlong := Message.build_eq_none.mp hm
          have := hx x (by simp)
          omega
      | some m => exact ⟨m :: msgs,.cons hm hmsgs⟩

/-- The frame of a built message is one frame of the grammar. -/
theorem isFrame_build {o : ByteOrder} {x : Outgoing} {m : Message} (h : x.build o = some m) :
    (framing (lp64 o)).IsFrame (m.frame (lp64 o)) := by
  obtain ⟨hc,hh⟩ := Message.build_spec h
  have hfits := hc.fits
  rw [hc.frame (lp64 o)]
  refine ⟨x.data.length,?_,by rw [List.length_append,Header.length_image]; rfl⟩
  have himage : (m.header.image o ++ x.data).take 20 = m.header.image o :=
    List.take_left' (Header.length_image o _)
  have hfield : lengthField o (m.header.image o ++ x.data) = x.data.length := by
    rw [lengthField,himage]
    have := congrArg Header.length (Header.ofImage_image o m.header)
    rw [← hc.length,← this]
    rfl
  rw [show (framing (lp64 o)).headLength = 20 from rfl,framing_bodyLength,hfield,if_pos hfits]

/-- Equal wire images carry equal contents. -/
theorem content_of_frame {o : ByteOrder} {x : Outgoing} {m d : Message} (h : x.build o = some m)
    (hd : WireMessage o d) (himage : d.wireImage = m.frame (lp64 o)) : content d = x.content := by
  obtain ⟨hc,hh⟩ := Message.build_spec h
  rw [hc.frame (lp64 o)] at himage
  have htake : d.wireImage.take 20 = m.header.image o := by
    rw [himage,List.take_left' (Header.length_image o _)]
  have hdrop : d.wireImage.drop 20 = x.data := by
    rw [himage,List.drop_left' (Header.length_image o _)]
  have hheader : d.header = m.header := by
    rw [hd.header,htake,Header.ofImage_image]
  have hlen : d.dataLength = x.data.length := by rw [hd.dataLength,hheader,hc.length]
  simp only [content,Outgoing.content,Message.getType,Message.getId,Message.getHash,
    Message.getErrcode,hheader,hh,hlen,hd.body,hdrop]

theorem contents_of_frames {o : ByteOrder} {xs : List Outgoing} {msgs ds : List Message}
    (hmsgs : List.Forall₂ (fun x m => Outgoing.build o x = some m) xs msgs)
    (hd : ∀ d ∈ ds, WireMessage o d)
    (heq : ds.map Message.wireImage = msgs.map (Message.frame (lp64 o))) :
    ds.map content = xs.map Outgoing.content := by
  induction hmsgs generalizing ds with
  | nil => rw [List.map_eq_nil_iff.mp heq]; rfl
  | @cons x m xs msgs hx _ ih =>
      obtain ⟨d,ds,rfl,hhead,htail⟩ := List.map_eq_cons_iff.mp heq
      rw [List.map_cons,List.map_cons,content_of_frame hx (hd d (by simp)) hhead,
        ih (fun e he => hd e (by simp [he])) htail]

theorem built_of_mem {o : ByteOrder} {xs : List Outgoing} {msgs : List Message} {d : Message}
    (hmsgs : List.Forall₂ (fun x m => Outgoing.build o x = some m) xs msgs) (hd : d ∈ msgs) :
    ∃ x, Outgoing.build o x = some d := by
  induction hmsgs with
  | nil => cases hd
  | @cons x m _ _ hx _ ih =>
      rcases List.mem_cons.mp hd with rfl | hd
      · exact ⟨x,hx⟩
      · exact ih hd

/-- Where an error-free run rests that has received built frames, its messages
have their contents. -/
theorem contents_read {o : ByteOrder} {m : Message} {cb : Bool} {addr : String}
    {xs : List Outgoing} {msgs : List Message} {es : List Event} {s : Connection}
    (hmsgs : List.Forall₂ (fun x m => Outgoing.build o x = some m) xs msgs)
    (hes : ∀ e ∈ es, Smooth e) (hrun : exec (step (lp64 o)) (started m cb addr) es = some s)
    (hrec : s.received = ConnectionWrites.frames (lp64 o) msgs) (hq : Quiescent s) :
    s.dispatched.map content = xs.map Outgoing.content := by
  obtain ⟨rest,_,hwire,hsplit,_⟩ := rest_split hes hrun hq
  have hframes : ∀ f ∈ msgs.map (Message.frame (lp64 o)), (framing (lp64 o)).IsFrame f := by
    intro f hf
    obtain ⟨d,hd,rfl⟩ := List.mem_map.mp hf
    obtain ⟨x,hx⟩ := built_of_mem hmsgs hd
    exact isFrame_build hx
  have hsent : (framing (lp64 o)).split s.received = (msgs.map (Message.frame (lp64 o)),[]) :=
    Framing.split_eq _ hframes (Framing.stuck_nil _) (by rw [hrec,List.append_nil]; rfl)
  exact contents_of_frames hmsgs hwire (Prod.mk.inj (hsplit.symm.trans hsent)).1

/-- A stream of built frames is dispatched message by message, in order and
with unchanged contents, from whatever `m_message` held before. -/
theorem stream_round_trip (o : ByteOrder) (m : Message) (cb : Bool) (addr : String)
    (xs : List Outgoing) (hx : ∀ x ∈ xs, x.data.length ≤ 4076) :
    ∃ msgs, List.Forall₂ (fun x m => Outgoing.build o x = some m) xs msgs ∧
      (∃ es s, (∀ e ∈ es, Smooth e) ∧ exec (step (lp64 o)) (started m cb addr) es = some s ∧
        s.received = ConnectionWrites.frames (lp64 o) msgs ∧ Quiescent s) ∧
      ∀ es s, (∀ e ∈ es, Smooth e) → exec (step (lp64 o)) (started m cb addr) es = some s →
        s.received = ConnectionWrites.frames (lp64 o) msgs → Quiescent s →
        s.dispatched.map content = xs.map Outgoing.content := by
  obtain ⟨msgs,hmsgs⟩ := build_all o hx
  exact ⟨msgs,hmsgs,stream_is_read (lp64_wide o) m cb addr _,
    fun _ _ hes hrun hrec hq => contents_read hmsgs hes hrun hrec hq⟩

theorem stream_round_trip_pair :
    (∀ x ∈ [(⟨[1,0,2],1,7,9,0⟩ : Outgoing),⟨[],3,8,9,5⟩], x.data.length ≤ 4076) ∧
      ∃ msgs, List.Forall₂ (fun x m => Outgoing.build .big x = some m)
          [⟨[1,0,2],1,7,9,0⟩,⟨[],3,8,9,5⟩] msgs ∧
        ∃ es s, exec (step (lp64 .big)) (started .empty true "") es = some s ∧
          s.received = ConnectionWrites.frames (lp64 .big) msgs ∧
          s.dispatched.map content = [⟨1,7,9,0,3,some [1,0,2]⟩,⟨3,8,9,5,0,some []⟩] := by
  have hx : ∀ x ∈ [(⟨[1,0,2],1,7,9,0⟩ : Outgoing),⟨[],3,8,9,5⟩], x.data.length ≤ 4076 := by decide
  obtain ⟨msgs,hmsgs,hfinished,hall⟩ := stream_round_trip .big .empty true "" _ hx
  obtain ⟨es,s,hes,hrun,hrec,hq⟩ := hfinished
  exact ⟨hx,msgs,hmsgs,es,s,hrun,hrec,hall es s hes hrun hrec hq⟩

end SindiaRpc.StreamReading
