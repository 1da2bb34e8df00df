import SindiaRpc.MessageFrames
import Mathlib.Data.List.Induction

/-!
# The two copies of a message's header

Every setter changes `m_header` and copies it over the first bytes of
`m_buffer`. The constructor copies the header before it sets its length, so the
copies of a message agree from the first setter on, and before that only if the
body is empty.
-/
namespace SindiaRpc.HeaderCopies
open MessageFrames

/-- A call of one of the four setters. -/
inductive Setter where
  | setType (type : UInt32)
  | setId (id : UInt32)
  | setHash (hash : UInt32)
  | setErrcode (error : UInt32)
  deriving DecidableEq, Repr

namespace Setter

def apply (o : ByteOrder) (m : Message) : Setter → Message
  | setType type => m.setType o type
  | setId id => m.setId o id
  | setHash hash => m.setHash o hash
  | setErrcode error => m.setErrcode o error

/-- What the call does to `m_header`. -/
def set (h : Header) : Setter → Header
  | setType type => {h with type := type}
  | setId id => {h with id := id}
  | setHash hash => {h with hash := hash}
  | setErrcode error => {h with error := error}

def type? : Setter → Option UInt32
  | setType type => some type
  | _ => none

def id? : Setter → Option UInt32
  | setId id => some id
  | _ => none

def hash? : Setter → Option UInt32
  | setHash hash => some hash
  | _ => none

def error? : Setter → Option UInt32
  | setErrcode error => some error
  | _ => none

theorem apply_eq (o : ByteOrder) (m : Message) (op : Setter) :
    op.apply o m = m.storeHeader o (op.set m.header) := by
  cases op <;> rfl

theorem set_length (h : Header) (op : Setter) : (op.set h).length = h.length := by
  cases op <;> rfl

end Setter

/-- The message after these calls. -/
def applied (o : ByteOrder) (ops : List Setter) (m : Message) : Message :=
  ops.foldl (Setter.apply o) m

/-- The value last set by the calls that `f` picks, zero if there is none. -/
def last (f : Setter → Option UInt32) (ops : List Setter) : UInt32 :=
  (ops.filterMap f).getLast?.getD 0

/-- All copies of the header and of the body length agree, the fields hold what
was last set, and parsing changes nothing. -/
structure Represents (o : ByteOrder) (data : Bytes) (ops : List Setter) (m : Message) : Prop
    extends Message.Coherent o data m where
  type : m.header.type = last Setter.type? ops
  id : m.header.id = last Setter.id? ops
  hash : m.header.hash = last Setter.hash? ops
  error : m.header.error = last Setter.error? ops
  parses : ∀ abi : Abi, abi.order = o → m.parseHeader abi = (true,m)

section Sequences
variable {o : ByteOrder} {data : Bytes} {ops : List Setter} {m : Message}

theorem applied_concat (ops : List Setter) (op : Setter) :
    applied o (ops ++ [op]) m = op.apply o (applied o ops m) := by
  simp [applied]

theorem last_concat (f : Setter → Option UInt32) (ops : List Setter) (op : Setter) :
    last f (ops ++ [op]) = (f op).getD (last f ops) := by
  cases h : f op <;> simp [last,h]

/-- Only the constructor sets the lengths and the body. -/
theorem applied_carries (h : Message.Carries data m) : Message.Carries data (applied o ops m) := by
  induction ops generalizing m with
  | nil => exact h
  | cons op ops ih =>
      apply ih
      rw [op.apply_eq]
      exact (h.storeHeader (op.set_length m.header)).toCarries

theorem applied_coherent (h : Message.Carries data m) (hops : ops ≠ []) :
    Message.Coherent o data (applied o ops m) := by
  obtain ⟨pre,op,rfl⟩ := (List.eq_nil_or_concat ops).resolve_left hops
  rw [List.concat_eq_append,applied_concat,op.apply_eq]
  exact (applied_carries h).storeHeader (op.set_length _)

/-- Each field is the value last set for it. -/
theorem applied_header (hm : m.header = {length := m.header.length}) :
    (applied o ops m).header = ⟨last Setter.type? ops,m.header.length,last Setter.id? ops,
      last Setter.hash? ops,last Setter.error? ops⟩ := by
  induction ops using List.reverseRecOn with
  | nil => exact hm
  | append_singleton ops op ih =>
      rw [applied_concat,op.apply_eq,Message.storeHeader_header,ih]
      simp only [last_concat]
      cases op <;> rfl

/-- With equal copies `parse_header` reads back what it finds. -/
theorem parseHeader_coherent (h : Message.Coherent o data m) {abi : Abi} (habi : abi.order = o) :
    m.parseHeader abi = (true,m) := by
  subst habi
  have hfits := h.fits
  have hheader : Header.ofImage abi.order (m.buffer.slice 0 20) = m.header := by
    rw [h.image,Header.ofImage_image]
  have hlen : m.announced abi = m.bodyLength := by
    rw [← Message.ofImage_slice_length,hheader,h.length,h.bodyLength]
  have hbody := h.bodyLength
  rw [Message.parseHeader_accepts (by rw [abi.size_of_lt] <;> omega),hheader,hlen]

/-- The constructor's image is that of an empty header. -/
theorem ofData_image (h : Message.ofData o data = some m) :
    m.buffer.slice 0 20 = Header.image o {} := by
  simp only [Message.ofData,Option.map_eq_some_iff,Buffer.store_eq_some] at h
  obtain ⟨b,⟨hr,rfl⟩,rfl⟩ := h
  have himage := (Buffer.fill 4096 (0 : UInt8)).slice_overwrite_same 0 (Header.image o {})
    (Message.imageInRange o {})
  rw [Header.length_image] at himage
  rw [Buffer.slice_overwrite_before _ _ _ (by simp)]
  exact himage

theorem ofData_coherent (h : Message.ofData o data = some m) (hempty : data = []) :
    Message.Coherent o data m where
  toCarries := Message.ofData_carries h
  image := by rw [ofData_image h,Message.ofData_header h,hempty]; rfl

theorem empty_of_coherent (h : Message.ofData o data = some m) (hm : Message.Coherent o data m) :
    data = [] := by
  have himage : Header.image o {} = m.header.image o := (ofData_image h).symm.trans hm.image
  have hheader : ({} : Header) = m.header := by
    rw [← Header.ofImage_image o {},himage,Header.ofImage_image]
  have hlen := hm.length
  rw [← hheader] at hlen
  exact List.eq_nil_of_length_eq_zero hlen.symm

end Sequences

/-- After any calls of setters the copies agree exactly if there was a call, or
nothing but the header to be copied. -/
theorem copies_agree_iff (o : ByteOrder) (data : Bytes) (ops : List Setter)
    (hlen : data.length ≤ 4076) :
    ∃ m, Message.ofData o data = some m ∧
      (Represents o data ops (applied o ops m) ↔ ops ≠ [] ∨ data = []) := by
  cases hm : Message.ofData o data with
  | none =>
      have hlong := Message.ofData_eq_none.mp hm
      omega
  | some m =>
      refine ⟨m,rfl,?_,?_⟩
      · intro h
        cases ops with
        | nil => exact Or.inr (empty_of_coherent hm h.toCoherent)
        | cons op ops => exact Or.inl (by simp)
      · intro h
        have hcoherent : Message.Coherent o data (applied o ops m) := by
          rcases h with hops | hempty
          · exact applied_coherent (Message.ofData_carries hm) hops
          · cases ops with
            | nil => exact ofData_coherent hm hempty
            | cons op ops => exact applied_coherent (Message.ofData_carries hm) (by simp)
        have hinit := Message.ofData_header hm
        have hheader : (applied o ops m).header = _ := applied_header (by rw [hinit])
        refine ⟨hcoherent,?_,?_,?_,?_,fun abi habi => parseHeader_coherent hcoherent habi⟩
        all_goals rw [hheader]

theorem copies_agree_iff_reply : ∃ m, Message.ofData .little [7] = some m ∧
    (Represents .little [7] [.setType 2,.setHash 5,.setId 1,.setErrcode 0]
        (applied .little [.setType 2,.setHash 5,.setId 1,.setErrcode 0] m) ↔
      [Setter.setType 2,.setHash 5,.setId 1,.setErrcode 0] ≠ [] ∨ ([7] : Bytes) = []) :=
  copies_agree_iff .little [7] _ (by decide)

/-- Before the first setter the length in the buffer is zero. -/
theorem constructor_copies_no_length :
    ¬ ∀ (data : Bytes) (ops : List Setter) (m : Message), data.length ≤ 4076 →
      Message.ofData .little data = some m → Represents .little data ops (applied .little ops m) := by
  intro h
  have hsome : ∃ m, Message.ofData .little [7] = some m := Option.isSome_iff_exists.mp (by decide)
  obtain ⟨m,hm⟩ := hsome
  have hcopy : m.buffer.slice 0 20 = m.header.image .little := (h [7] [] m (by decide) hm).image
  rw [ofData_image hm,Message.ofData_header hm] at hcopy
  exact absurd hcopy (by decide)

end SindiaRpc.HeaderCopies
