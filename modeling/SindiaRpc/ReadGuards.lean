import SindiaRpc.ReadLoop
import SindiaRpc.ListUpdates

/-!
# What the header check guards

Two properties of every run of a started connection hang on `parse_header`.
A connection that has stopped reading has been closed: a refused header breaks
this, since it is passed to `OnError` with the success code of the read. And
every range the loop reads into or hands to the dispatcher lies inside
`m_buffer`: where `size_t` has 32 bits the check itself wraps around and lets
the longest announcements through.
-/
namespace SindiaRpc.ReadGuards
open MessageFrames ConnectionState GuardedRuns ReadLoop ListUpdates

/-! ### The close callback -/

/-- What `Close` changes besides the operations in progress. -/
structure Notice where
  isOpen : Bool
  closecb : Bool
  closes : ℕ
  closecbCalls : ℕ

def notice (s : Connection) : Notice := ⟨s.isOpen,s.closecb,s.closes,s.closecbCalls⟩

def Notice.close (n : Notice) : Notice :=
  ⟨false,n.closecb,n.closes + 1,n.closecbCalls + if n.closecb then 1 else 0⟩

/-- The step calls `Close`, if `OnReadHead` is left aside. -/
def Closing (s : Connection) : Event → Prop
  | .runRead i _ => ∃ op ∈ s.reads[i]?, op.handler = .onReadBody ∧ ∃ e ∈ op.result, e ≠ 0
  | .runWrite i => ∃ op ∈ s.writes[i]?, ∃ e ∈ op.result, op.bound.getD e ≠ 0
  | .callStop => True
  | _ => False

section Notices
variable {abi : Abi} {s t : Connection}

theorem notice_onError (e : ErrorCode) (s : Connection) :
    notice (s.onError e) = if e = 0 then notice s else (notice s).close := by
  unfold Connection.onError
  split_ifs <;> rfl

theorem notice_write {msg : Message} (h : s.write abi msg = some t) : notice t = notice s := by
  simp only [Connection.write] at h
  split_ifs at h
  · obtain ⟨bytes,_,rfl⟩ := Option.map_eq_some_iff.mp h
    rfl
  · exact Option.some.inj h ▸ rfl

theorem notice_onReadHead (e : ErrorCode) : notice (s.onReadHead abi e) = notice s ∨
    notice (s.onReadHead abi e) = (notice s).close ∧ s.isOpen = true := by
  unfold Connection.onReadHead
  split_ifs with hclosed he
  · exact Or.inl rfl
  · split
    · left
      rw [notice_onError,if_pos he]
      rfl
    · exact Or.inl rfl
  · right
    rw [notice_onError,if_neg he]
    exact ⟨rfl,by simpa using hclosed⟩

theorem notice_onReadBody {e : ErrorCode} {reply : Option Message}
    (h : s.onReadBody abi e reply = some t) :
    notice t = if e = 0 then notice s else (notice s).close := by
  simp only [Connection.onReadBody] at h
  split_ifs at h ⊢ with he
  · cases reply with
    | none => exact Option.some.inj h ▸ rfl
    | some msg =>
        obtain ⟨u,hu,rfl⟩ := Option.map_eq_some_iff.mp h
        have hn := notice_write hu
        exact hn
  · rw [← Option.some.inj h,notice_onError,if_neg he]

theorem notice_onWrite {e : ErrorCode} (h : s.onWrite abi e = some t) :
    notice t = if e = 0 then notice s else (notice s).close := by
  unfold Connection.onWrite at h
  split_ifs at h ⊢ with he
  · split at h
    · exact Option.some.inj h ▸ rfl
    · obtain ⟨bytes,_,rfl⟩ := Option.map_eq_some_iff.mp h
      rfl
  · rw [← Option.some.inj h]
    exact (notice_onError e s).trans (if_neg he)

/-- A step closes the socket once or leaves the notice alone. -/
theorem step_notice {e : Event} (h : step abi s e = some t) :
    notice t = notice s ∨ notice t = (notice s).close ∧ (s.isOpen = true ∨ Closing s e) := by
  cases e with
  | receive bytes => exact Or.inl (Option.some.inj h ▸ rfl)
  | readReady i =>
      obtain ⟨op,buffer,_,_,_,_,_,rfl⟩ := step_readReady.mp h
      exact Or.inl rfl
  | readFail i error =>
      obtain ⟨op,_,_,_,rfl⟩ := step_readFail.mp h
      exact Or.inl rfl
  | runRead i reply =>
      obtain ⟨op,e,hop,hres,hrun⟩ := step_runRead.mp h
      rcases hrun with ⟨_,rfl⟩ | ⟨hbody,hrun⟩
      · rcases notice_onReadHead e with hn | ⟨hn,ho⟩
        · exact Or.inl hn
        · exact Or.inr ⟨hn,Or.inl ho⟩
      · have hn := notice_onReadBody hrun
        split_ifs at hn with he
        · exact Or.inl hn
        · exact Or.inr ⟨hn,Or.inr ⟨op,hop,hbody,e,hres,he⟩⟩
  | callWrite msg => exact Or.inl (notice_write h)
  | sendChunk i n =>
      obtain ⟨op,_,_,_,_,_,rfl⟩ := step_sendChunk.mp h
      exact Or.inl rfl
  | writeReady i =>
      obtain ⟨op,_,_,_,rfl⟩ := step_writeReady.mp h
      exact Or.inl rfl
  | writeFail i error =>
      obtain ⟨op,_,_,_,rfl⟩ := step_writeFail.mp h
      exact Or.inl rfl
  | runWrite i =>
      obtain ⟨op,e,hop,hres,hrun⟩ := step_runWrite.mp h
      have hn := notice_onWrite hrun
      split_ifs at hn with he
      · exact Or.inl hn
      · exact Or.inr ⟨hn,Or.inr ⟨op,hop,e,hres,he⟩⟩
  | callStop => exact Or.inr ⟨Option.some.inj h ▸ rfl,Or.inr trivial⟩

end Notices

/-- Whoever owns the connection knows that it is over. -/
def Notice.Told (n : Notice) : Prop := 0 < n.closes ∧ (n.closecb = true → 0 < n.closecbCalls)

/-- A closed socket was closed by `Close`. -/
def Notice.Kept (n : Notice) : Prop := n.isOpen = false → n.Told

theorem Notice.told_close (n : Notice) : n.close.Told := by
  refine ⟨Nat.succ_pos _,?_⟩
  intro hcb
  have hset : n.closecb = true := hcb
  simp only [close,hset,if_true]
  exact Nat.succ_pos _

theorem kept_step {abi : Abi} {s t : Connection} {e : Event} (h : (notice s).Kept)
    (hs : step abi s e = some t) : (notice t).Kept := by
  rcases step_notice hs with hn | ⟨hn,_⟩
  · rw [hn]
    exact h
  · rw [hn]
    intro _
    exact (notice s).told_close

/-! ### A connection that reads no more has been closed -/

/-- An open socket has its one read, and without one the owner has been told. -/
structure Reading (s : Connection) : Prop where
  one : s.isOpen = true → s.reads.length = 1
  told : s.reads = [] → (notice s).Told

instance (n : Notice) : Decidable n.Told := inferInstanceAs (Decidable (_ ∧ _))

instance (s : Connection) : Decidable (Reading s) :=
  decidable_of_iff ((s.isOpen = true → s.reads.length = 1) ∧ (s.reads = [] → (notice s).Told))
    ⟨fun h => ⟨h.1,h.2⟩,fun h => ⟨h.one,h.told⟩⟩

/-- The step runs `OnReadHead` for a header read from a socket still open. -/
def HeadArrives (s : Connection) : Event → Prop
  | .runRead i _ => s.isOpen = true ∧
      ∃ op ∈ s.reads[i]?, op.handler = .onReadHead ∧ op.result = some 0
  | _ => False

instance (s : Connection) : ∀ e, Decidable (HeadArrives s e)
  | .runRead _ _ => inferInstanceAs (Decidable (_ ∧ _))
  | .receive _ | .readReady _ | .readFail _ _ | .callWrite _ | .sendChunk _ _ | .writeReady _
  | .writeFail _ _ | .runWrite _ | .callStop => inferInstanceAs (Decidable False)

/-- The header it runs for passes the check. -/
def HeadAccepted (abi : Abi) (s : Connection) (e : Event) : Prop :=
  HeadArrives s e → Accepted abi s.message

instance (abi : Abi) (s : Connection) (e : Event) : Decidable (HeadAccepted abi s e) :=
  inferInstanceAs (Decidable (_ → _))

section Steps
variable {abi : Abi} {s t : Connection} {e : Event}

/-- What a header that arrives does: the body read it asks for, or nothing. -/
theorem step_headArrives (hinv : ReadInv abi (view s)) (h : HeadArrives s e) :
    ∃ t, step abi s e = some t ∧ t.isOpen = true ∧
      t.reads = if Accepted abi s.message then [⟨.onReadBody,20,s.message.announced abi,none⟩]
        else [] := by
  cases e with
  | runRead i reply =>
      obtain ⟨ho,op,hop,hh,hres⟩ := h
      obtain ⟨_,hnil,_⟩ := hinv.phase.ready hop hres
      refine ⟨_,step_runRead.mpr ⟨op,0,hop,hres,Or.inl ⟨hh,rfl⟩⟩,?_⟩
      rw [show s.reads.eraseIdx i = [] from hnil]
      rcases view_onReadHead abi {s with reads := []} 0 rfl with
        ⟨hc,_⟩ | ⟨_,hne,_⟩ | ⟨_,_,ha,ht⟩ | ⟨_,_,ha,ht⟩
      · exact absurd (ho.symm.trans hc) (by simp)
      · exact absurd rfl hne
      · rw [ht,if_neg ha]
        exact ⟨ho,rfl⟩
      · rw [ht,if_pos ha]
        exact ⟨ho,rfl⟩
  | receive _ | readReady _ | readFail _ _ | callWrite _ | sendChunk _ _ | writeReady _
  | writeFail _ _ | runWrite _ | callStop => exact h.elim

/-- Unless a header arrives, a step leaves the ranges being read as they are or
starts reading a header or ends reading. -/
theorem step_reads (hinv : ReadInv abi (view s)) (hs : step abi s e = some t)
    (hhead : ¬ HeadArrives s e) :
    t.reads.map (fun op => (op.offset,op.length)) = s.reads.map (fun op => (op.offset,op.length)) ∨
      t.reads.map (fun op => (op.offset,op.length)) = [(0,20)] ∨
      t.reads = [] ∧ t.isOpen = false := by
  have hset : ∀ {i : ℕ} {op op' : ReadOp}, s.reads[i]? = some op → op'.offset = op.offset →
      op'.length = op.length → (s.reads.set i op').map (fun op => (op.offset,op.length)) =
        s.reads.map (fun op => (op.offset,op.length)) := by
    intro i op op' hop hoff hlen
    apply map_set_same _ hop
    rw [hoff,hlen]
  cases e with
  | receive bytes => exact Or.inl (Option.some.inj hs ▸ rfl)
  | readReady i =>
      obtain ⟨op,buffer,hop,_,_,_,_,rfl⟩ := step_readReady.mp hs
      exact Or.inl (hset hop rfl rfl)
  | readFail i error =>
      obtain ⟨op,hop,_,_,rfl⟩ := step_readFail.mp hs
      exact Or.inl (hset hop rfl rfl)
  | runRead i reply =>
      right
      obtain ⟨op,e,hop,he,hrun⟩ := step_runRead.mp hs
      obtain ⟨_,hnil,_⟩ := hinv.phase.ready hop he
      rw [show s.reads.eraseIdx i = [] from hnil] at hrun
      rcases hrun with ⟨hh,rfl⟩ | ⟨hh,hb⟩
      · right
        rcases view_onReadHead abi {s with reads := []} e rfl with
          ⟨ho,ht⟩ | ⟨_,_,ht⟩ | ⟨ho,rfl,_⟩ | ⟨ho,rfl,_⟩
        · rw [ht]
          exact ⟨rfl,ho⟩
        · exact ⟨congrArg ReadView.reads ht,congrArg ReadView.isOpen ht⟩
        · exact absurd ⟨ho,op,hop,hh,he⟩ hhead
        · exact absurd ⟨ho,op,hop,hh,he⟩ hhead
      · rcases view_onReadBody rfl hb with ⟨_,hv⟩ | ⟨_,hv⟩
        · right
          exact ⟨congrArg ReadView.reads hv,congrArg ReadView.isOpen hv⟩
        · left
          rw [show t.reads = _ from congrArg ReadView.reads hv]
          rfl
  | callWrite _ | sendChunk _ _ | writeReady _ | writeFail _ _ | runWrite _ | callStop =>
      left
      rcases view_writeSide rfl hs with hv | hv
      · rw [show t.reads = s.reads from congrArg ReadView.reads hv]
      · rw [show t.reads = s.reads.map ReadOp.abort from congrArg ReadView.reads hv,List.map_map]
        rfl

end Steps

structure OpenReads (abi : Abi) (s : Connection) : Prop where
  inv : ReadInv abi (view s)
  kept : (notice s).Kept
  nonempty : s.isOpen = true → s.reads ≠ []

namespace OpenReads
variable {abi : Abi} {s t : Connection} {e : Event}

theorem reading (h : OpenReads abi s) : Reading s where
  one ho := by
    have hv := h.nonempty ho
    cases h.inv.phase with
    | head _ _ reads _ | headDone reads _ | body _ _ reads _ _ _ | bodyDone reads _ _ _ =>
        exact congrArg List.length reads
    | refused _ reads _ _ => exact absurd reads hv
    | ended isOpen _ => exact absurd (ho.symm.trans isOpen) (by simp)
  told hr := by
    cases ho : s.isOpen with
    | true => exact absurd hr (h.nonempty ho)
    | false => exact h.kept ho

theorem step (h : OpenReads abi s) (he : HeadAccepted abi s e)
    (hs : ConnectionState.step abi s e = some t) : OpenReads abi t where
  inv := h.inv.step hs
  kept := kept_step h.kept hs
  nonempty ho := by
    have hso : s.isOpen = true := by
      rcases step_notice hs with hn | ⟨hn,_⟩
      · rw [← ho]
        exact (congrArg Notice.isOpen hn).symm
      · have hc : t.isOpen = false := congrArg Notice.isOpen hn
        rw [hc] at ho
        cases ho
    by_cases hhead : HeadArrives s e
    · obtain ⟨u,hu,_,hreads⟩ := step_headArrives h.inv hhead
      obtain rfl := Option.some.inj (hs.symm.trans hu)
      rw [hreads,if_pos (he hhead)]
      simp
    · rcases step_reads h.inv hs hhead with hr | hr | ⟨_,hc⟩
      · intro hnil
        rw [hnil,List.map_nil] at hr
        exact h.nonempty hso (List.map_eq_nil_iff.mp hr.symm)
      · intro hnil
        rw [hnil] at hr
        cases hr
      · exact absurd (ho.symm.trans hc) (by simp)

end OpenReads

theorem started_openReads (abi : Abi) (m : Message) (cb : Bool) (addr : String) :
    OpenReads abi (started m cb addr) := by
  refine ⟨started_inv abi m cb addr,?_,?_⟩
  · intro hc
    cases hc
  · intro _ hnil
    cases hnil

/-- A run keeps reading or closes, in every state it reaches, exactly if every
header that arrives passes the check. -/
theorem reading_iff_accepted (abi : Abi) (m : Message) (cb : Bool) (addr : String)
    (es : List Event) :
    AllStates (step abi) Reading (started m cb addr) es ↔
      AllSteps (step abi) (HeadAccepted abi) (started m cb addr) es := by
  apply allStates_iff_allSteps (I := OpenReads abi)
  · exact fun s hs => hs.reading
  · exact fun s e t hs he ht => hs.step he ht
  · intro s e hs he
    -- the refused header leaves an open socket without a read
    have hhead : HeadArrives s e := by
      by_contra hn
      exact he fun ha => absurd ha hn
    obtain ⟨t,ht,ho,hreads⟩ := step_headArrives hs.inv hhead
    refine ⟨t,ht,?_⟩
    intro hr
    have hone := hr.one ho
    rw [hreads,if_neg fun ha => he fun _ => ha] at hone
    cases hone
  · exact started_openReads abi m cb addr

/-- A header that announces 4077 bytes, from a peer that then goes on sending. -/
def refusedRun : List Event :=
  [.receive (Header.image .little {type := 1, length := 4077}),.readReady 0,.runRead 0 none,
    .receive [1,2,3]]

theorem refused_header_keeps_socket :
    ¬ ∀ (abi : Abi) (m : Message) (cb : Bool) (addr : String) (es : List Event) (s : Connection),
      exec (step abi) (started m cb addr) es = some s → Reading s := by
  intro h
  have hrun : ∃ s ∈ exec (step (lp64 .little)) (started .empty true "") refusedRun,
      ¬ Reading s := by decide
  obtain ⟨s,hs,hbad⟩ := hrun
  exact hbad (h _ _ _ _ _ s hs)

/-! ### Ranges of the buffer -/

/-- Every read in progress and every body that was dispatched lies in the 4096
bytes. -/
structure Inside (s : Connection) : Prop where
  reads : ∀ op ∈ s.reads, op.offset + op.length ≤ 4096
  dispatched : ∀ m ∈ s.dispatched, m.data + m.dataLength ≤ 4096

instance (s : Connection) : Decidable (Inside s) :=
  decidable_of_iff ((∀ op ∈ s.reads, op.offset + op.length ≤ 4096) ∧
      ∀ m ∈ s.dispatched, m.data + m.dataLength ≤ 4096)
    ⟨fun h => ⟨h.1,h.2⟩,fun h => ⟨h.reads,h.dispatched⟩⟩

/-- The sum that the check compares does not wrap around. -/
def Unwrapped (abi : Abi) (m : Message) : Prop :=
  32 < abi.sizeBits ∨ m.announced abi < 4294967276

instance (abi : Abi) (m : Message) : Decidable (Unwrapped abi m) :=
  inferInstanceAs (Decidable (_ ∨ _))

def HeadUnwrapped (abi : Abi) (s : Connection) (e : Event) : Prop :=
  HeadArrives s e → Unwrapped abi s.message

theorem announced_le_of_accepted {abi : Abi} {m : Message} (hw : Unwrapped abi m)
    (ha : Accepted abi m) : m.announced abi ≤ 4076 := by
  have hsum : abi.size (m.announced abi + 20) = m.announced abi + 20 := by
    rcases hw with hw | hw
    · exact Message.size_announced abi hw m
    · exact Message.size_announced_of_lt abi m hw
  unfold Accepted at ha
  omega

/-- The twenty longest announcements pass a check made in 32 bits. -/
theorem accepted_of_wrapped {abi : Abi} {m : Message} (hw : ¬ Unwrapped abi m) :
    Accepted abi m ∧ 4294967276 ≤ m.announced abi := by
  have hbits := abi.sizeBits_ge
  have hlt := Message.announced_lt abi m
  unfold Unwrapped at hw
  have h32 : abi.sizeBits = 32 := by omega
  refine ⟨?_,by omega⟩
  simp only [Accepted,Abi.size,h32]
  omega

structure Ranges (abi : Abi) (s : Connection) : Prop where
  inv : ReadInv abi (view s)
  reads : ∀ op ∈ s.reads, op.offset + op.length ≤ 4096

theorem Ranges.inside {abi : Abi} {s : Connection} (h : Ranges abi s) : Inside s where
  reads := h.reads
  dispatched := by
    intro m hm
    have hfits : 20 + m.bodyLength ≤ 4096 := (h.inv.delivered m hm).fits
    simpa [Message.data,Message.dataLength] using hfits

theorem Ranges.step {abi : Abi} {s t : Connection} {e : Event} (h : Ranges abi s)
    (he : HeadUnwrapped abi s e) (hs : ConnectionState.step abi s e = some t) : Ranges abi t where
  inv := h.inv.step hs
  reads := by
    have of_map : ∀ rs : List (ℕ × ℕ), t.reads.map (fun op => (op.offset,op.length)) = rs →
        (∀ r ∈ rs, r.1 + r.2 ≤ 4096) → ∀ op ∈ t.reads, op.offset + op.length ≤ 4096 := by
      intro rs hmap hrs op hop
      have hmem : (op.offset,op.length) ∈ rs := hmap ▸ List.mem_map_of_mem hop
      exact hrs _ hmem
    by_cases hhead : HeadArrives s e
    · obtain ⟨u,hu,_,hreads⟩ := step_headArrives h.inv hhead
      obtain rfl := Option.some.inj (hs.symm.trans hu)
      rw [hreads]
      split_ifs with ha
      · have hle := announced_le_of_accepted (he hhead) ha
        simp only [List.mem_singleton,forall_eq]
        omega
      · simp
    · rcases step_reads h.inv hs hhead with hr | hr | ⟨hnil,_⟩
      · apply of_map _ hr
        intro r hmem
        obtain ⟨op,hop,rfl⟩ := List.mem_map.mp hmem
        exact h.reads op hop
      · exact of_map _ hr (by simp)
      · simp [hnil]

/-- The loop stays inside `m_buffer` throughout a run exactly if the check
never wraps around: always on a build wider than 32 bits. -/
theorem inside_iff_unwrapped (abi : Abi) (m : Message) (cb : Bool) (addr : String)
    (es : List Event) :
    AllStates (step abi) Inside (started m cb addr) es ↔
      AllSteps (step abi) (HeadUnwrapped abi) (started m cb addr) es := by
  apply allStates_iff_allSteps (I := Ranges abi)
  · exact fun s hs => hs.inside
  · exact fun s e t hs he ht => hs.step he ht
  · intro s e hs he
    have hhead : HeadArrives s e := by
      by_contra hn
      exact he fun ha => absurd ha hn
    obtain ⟨ha,hlong⟩ := accepted_of_wrapped fun hu => he fun _ => hu
    obtain ⟨t,ht,_,hreads⟩ := step_headArrives hs.inv hhead
    refine ⟨t,ht,?_⟩
    intro hin
    rw [if_pos ha] at hreads
    have hrange := hin.reads ⟨.onReadBody,20,s.message.announced abi,none⟩ (by simp [hreads])
    simp only at hrange
    omega
  · refine ⟨started_inv abi m cb addr,?_⟩
    intro op hop
    rw [List.mem_singleton.mp hop]
    decide

/-- On a 32-bit build a header announces the longest body there is. -/
def wrappedRun : List Event :=
  [.receive (Header.image .little {type := 1, length := 4294967295}),.readReady 0,.runRead 0 none]

theorem wrapped_length_leaves_buffer :
    ¬ ∀ (abi : Abi) (m : Message) (cb : Bool) (addr : String) (es : List Event) (s : Connection),
      exec (step abi) (started m cb addr) es = some s → Inside s := by
  intro h
  have hrun : ∃ s ∈ exec (step ⟨.little,32,by decide⟩) (started .empty true "") wrappedRun,
      ¬ Inside s := by decide
  obtain ⟨s,hs,hbad⟩ := hrun
  exact hbad (h _ _ _ _ _ s hs)

end SindiaRpc.ReadGuards
