import SindiaRpc.ByteOrders
import SindiaRpc.BoundedBuffers

/-!
# Messages and their buffer image (`common/message.hpp`)

A `Message` holds its header twice, as the field `m_header` and as the first
bytes of `m_buffer`, and its body length twice more. Sizes are `size_t` values,
natural numbers reduced modulo the width of the build. Copies into and strings
out of `m_buffer` have no result where the range leaves the 4096 bytes.
-/
namespace SindiaRpc.MessageFrames

abbrev Bytes := List UInt8

/-- What a build fixes: the byte order and the width of `size_t`. -/
structure Abi where
  order : ByteOrder
  sizeBits : ℕ
  sizeBits_ge : 32 ≤ sizeBits
  deriving DecidableEq

/-- A `size_t` result. -/
def Abi.size (abi : Abi) (n : ℕ) : ℕ := n % 2 ^ abi.sizeBits

/-- 64-bit builds. -/
def lp64 (o : ByteOrder) : Abi := ⟨o,64,by decide⟩

theorem Abi.size_of_lt (abi : Abi) {n : ℕ} (h : n < 2 ^ 32) : abi.size n = n :=
  Nat.mod_eq_of_lt (Nat.lt_of_lt_of_le h (Nat.pow_le_pow_right (by decide) abi.sizeBits_ge))

theorem Abi.size_of_wide (abi : Abi) {n : ℕ} (hw : 32 < abi.sizeBits) (h : n < 2 ^ 33) :
    abi.size n = n :=
  Nat.mod_eq_of_lt (Nat.lt_of_lt_of_le h (Nat.pow_le_pow_right (by decide) hw))

theorem lp64_wide (o : ByteOrder) : 32 < (lp64 o).sizeBits := by
  change 32 < 64
  decide

/-- `MAXDATALEN`. -/
abbrev maxDataLen : ℕ := 4096

/-- `sizeof(Header)`: five words without padding. -/
abbrev sizeofHeader : ℕ := 20

/-- `MSGTYPE`. -/
inductive MsgType where
  | request | response | notify
  deriving DecidableEq, Repr

def MsgType.code : MsgType → UInt32
  | request => 1
  | response => 2
  | notify => 3

structure Header where
  type : UInt32 := 0
  length : UInt32 := 0
  id : UInt32 := 0
  hash : UInt32 := 0
  error : UInt32 := 0
  deriving DecidableEq, Repr

namespace Header

def image (o : ByteOrder) (h : Header) : Bytes :=
  o.encode h.type ++ (o.encode h.length ++ (o.encode h.id ++ (o.encode h.hash ++ o.encode h.error)))

/-- The word of an image at byte `off`. -/
def wordAt (o : ByteOrder) (bs : Bytes) (off : ℕ) : UInt32 := o.decode ((bs.drop off).take 4)

def ofImage (o : ByteOrder) (bs : Bytes) : Header :=
  ⟨wordAt o bs 0,wordAt o bs 4,wordAt o bs 8,wordAt o bs 12,wordAt o bs 16⟩

@[simp] theorem length_image (o : ByteOrder) (h : Header) : (h.image o).length = 20 := by
  simp [image]

theorem wordAt_encode (o : ByteOrder) (w : UInt32) (bs : Bytes) :
    wordAt o (o.encode w ++ bs) 0 = w := by
  rw [wordAt,List.drop_zero,List.take_left' (o.length_encode w),o.decode_encode]

theorem wordAt_skip (o : ByteOrder) (w : UInt32) (bs : Bytes) {off : ℕ} (h : 4 ≤ off) :
    wordAt o (o.encode w ++ bs) off = wordAt o bs (off - 4) := by
  have hd : (o.encode w ++ bs).drop off = bs.drop (off - 4) := by
    rw [List.drop_append,List.drop_of_length_le (by rw [o.length_encode]; omega),List.nil_append,
      o.length_encode]
  rw [wordAt,hd,wordAt]

theorem ofImage_image_append (o : ByteOrder) (h : Header) (bs : Bytes) :
    ofImage o (h.image o ++ bs) = h := by
  simp [ofImage,image,wordAt_encode,wordAt_skip]

@[simp] theorem ofImage_image (o : ByteOrder) (h : Header) : ofImage o (h.image o) = h := by
  simpa using ofImage_image_append o h []

end Header

/-- `m_header_length` is set by both constructors and assigned nowhere else. -/
structure Message where
  headerLength : ℕ := sizeofHeader
  bodyLength : ℕ
  header : Header
  /-- `m_buffer[MAXDATALEN]`. -/
  buffer : Buffer UInt8 4096
  headerLength_eq : headerLength = sizeofHeader := by rfl
  deriving DecidableEq

namespace Message

attribute [simp] headerLength_eq

theorem imageInRange (o : ByteOrder) (h : Header) :
    Buffer.InRange 4096 0 (h.image o).length := by
  simp [Buffer.InRange]

/-- `memcpy(m_buffer, &m_header, sizeof(m_header))` for a header value. -/
def storeHeader (o : ByteOrder) (h : Header) (m : Message) : Message :=
  {m with header := h, buffer := m.buffer.overwrite 0 (h.image o) (imageInRange o h)}

/-- `Message()`. -/
def empty : Message := ⟨sizeofHeader,0,{},Buffer.fill 4096 0,rfl⟩

/-- `Message(const char*, size_t)`. The header image is copied before the
length is known, and the body copy is the one that can leave `m_buffer`. -/
def ofData (o : ByteOrder) (data : Bytes) : Option Message :=
  let zeroed := (Buffer.fill 4096 (0 : UInt8)).overwrite 0 (Header.image o {})
    (imageInRange o {})
  (zeroed.store sizeofHeader data).map fun b =>
    ⟨sizeofHeader,data.length,{length := UInt32.ofNat data.length},b,rfl⟩

def setType (o : ByteOrder) (type : UInt32) (m : Message) : Message :=
  m.storeHeader o {m.header with type := type}

def setId (o : ByteOrder) (id : UInt32) (m : Message) : Message :=
  m.storeHeader o {m.header with id := id}

def setHash (o : ByteOrder) (hash : UInt32) (m : Message) : Message :=
  m.storeHeader o {m.header with hash := hash}

def setErrcode (o : ByteOrder) (error : UInt32) (m : Message) : Message :=
  m.storeHeader o {m.header with error := error}

/-- The getters widen the header words to `size_t`. -/
def getHash (m : Message) : ℕ := m.header.hash.toNat
def getType (m : Message) : ℕ := m.header.type.toNat
def getId (m : Message) : ℕ := m.header.id.toNat
def getErrcode (m : Message) : ℕ := m.header.error.toNat

def bufferLength (abi : Abi) (m : Message) : ℕ := abi.size (m.headerLength + m.bodyLength)

/-- `data()`, as an offset into `m_buffer`. -/
def data (m : Message) : ℕ := m.headerLength

def dataLength (m : Message) : ℕ := m.bodyLength

/-- `std::string(data(), data_length())`. -/
def dataString (m : Message) : Option Bytes := m.buffer.load m.data m.dataLength

/-- The sum is taken in `size_t`. A refused header leaves `m_body_length` as it
was. -/
def parseHeader (abi : Abi) (m : Message) : Bool × Message :=
  let header := Header.ofImage abi.order (m.buffer.slice 0 m.headerLength)
  if abi.size (header.length.toNat + m.headerLength) > maxDataLen then (false,{m with header := header})
  else (true,{m with header := header, bodyLength := abi.size header.length.toNat})

/-- The bytes `buffer()[0, buffer_length())`. -/
def frame (abi : Abi) (m : Message) : Bytes := m.buffer.slice 0 (m.bufferLength abi)

/-- The length word of the header image now in `m_buffer`. -/
def announced (abi : Abi) (m : Message) : ℕ :=
  (Header.wordAt abi.order (m.buffer.slice 0 sizeofHeader) 4).toNat

/-! ### Field lemmas -/

section Fields
variable (o : ByteOrder) (h : Header) (m : Message)

@[simp] theorem storeHeader_header : (m.storeHeader o h).header = h := rfl

@[simp] theorem storeHeader_image : (m.storeHeader o h).buffer.slice 0 20 = h.image o := by
  have hs := m.buffer.slice_overwrite_same 0 (h.image o) (imageInRange o h)
  rwa [Header.length_image] at hs

/-- The header copy stays in front of the body. -/
@[simp] theorem storeHeader_body (len : ℕ) :
    (m.storeHeader o h).buffer.slice 20 len = m.buffer.slice 20 len :=
  m.buffer.slice_overwrite_after (h.image o) (imageInRange o h) (by simp)

@[simp] theorem storeHeader_storeHeader (h' : Header) :
    (m.storeHeader o h).storeHeader o h' = m.storeHeader o h' := by
  have hb := m.buffer.length_cells
  simp only [storeHeader,mk.injEq,true_and]
  apply Buffer.ext
  simp [Buffer.overwrite]

end Fields

/-- The body and its two lengths: what the constructor establishes. -/
structure Carries (data : Bytes) (m : Message) : Prop where
  fits : data.length ≤ 4076
  length : m.header.length.toNat = data.length
  bodyLength : m.bodyLength = data.length
  body : m.buffer.slice 20 data.length = data

/-- In addition the header image is that of the header field. -/
structure Coherent (o : ByteOrder) (data : Bytes) (m : Message) : Prop extends Carries data m where
  image : m.buffer.slice 0 20 = m.header.image o

theorem ofData_eq_none {o : ByteOrder} {data : Bytes} :
    ofData o data = none ↔ 4076 < data.length := by
  simp only [ofData,Option.map_eq_none_iff,Buffer.store_eq_none,Buffer.InRange,sizeofHeader]
  omega

theorem ofData_header {o : ByteOrder} {data : Bytes} {m : Message} (h : ofData o data = some m) :
    m.header = {length := UInt32.ofNat data.length} := by
  simp only [ofData,Option.map_eq_some_iff] at h
  obtain ⟨b,_,rfl⟩ := h
  rfl

theorem ofData_carries {o : ByteOrder} {data : Bytes} {m : Message} (h : ofData o data = some m) :
    Carries data m := by
  have hfit : data.length ≤ 4076 := by
    by_contra hlen
    rw [ofData_eq_none.mpr (by omega)] at h
    cases h
  simp only [ofData,Option.map_eq_some_iff,Buffer.store_eq_some] at h
  obtain ⟨b,⟨hr,rfl⟩,rfl⟩ := h
  refine ⟨hfit,?_,rfl,Buffer.slice_overwrite_same _ _ _ hr⟩
  simp only [UInt32.toNat_ofNat',Nat.reducePow]
  omega

theorem Carries.storeHeader {o : ByteOrder} {data : Bytes} {m : Message} (hm : Carries data m)
    {h : Header} (hl : h.length = m.header.length) : Coherent o data (m.storeHeader o h) where
  fits := hm.fits
  length := by rw [storeHeader_header,hl,hm.length]
  bodyLength := hm.bodyLength
  body := by rw [storeHeader_body,hm.body]
  image := by rw [storeHeader_image,storeHeader_header]

namespace Coherent
variable {o : ByteOrder} {data : Bytes} {m : Message}

theorem bufferLength (hm : Coherent o data m) (abi : Abi) :
    m.bufferLength abi = 20 + data.length := by
  have := hm.fits
  rw [Message.bufferLength,hm.bodyLength,headerLength_eq]
  exact abi.size_of_lt (by simp only [sizeofHeader]; omega)

theorem frame (hm : Coherent o data m) (abi : Abi) :
    m.frame abi = m.header.image o ++ data := by
  rw [Message.frame,hm.bufferLength,Buffer.slice_add,hm.image,Nat.zero_add,hm.body]

end Coherent

theorem Carries.dataString {data : Bytes} {m : Message} (hm : Carries data m) :
    m.dataString = some data := by
  have hfits := hm.fits
  rw [Message.dataString,Message.data,Message.dataLength,hm.bodyLength,headerLength_eq]
  refine Buffer.load_eq_some.mpr ⟨?_,hm.body⟩
  simp only [Buffer.InRange,sizeofHeader]
  omega

/-- A message as `Rpcchannel::Call` builds it. -/
def build (o : ByteOrder) (data : Bytes) (type id hash error : UInt32) : Option Message :=
  (ofData o data).map fun m =>
    (((m.setType o type).setId o id).setHash o hash).setErrcode o error

theorem build_eq_none {o : ByteOrder} {data : Bytes} {type id hash error : UInt32} :
    build o data type id hash error = none ↔ 4076 < data.length := by
  rw [build,Option.map_eq_none_iff,ofData_eq_none]

theorem build_spec {o : ByteOrder} {data : Bytes} {type id hash error : UInt32} {m : Message}
    (h : build o data type id hash error = some m) :
    Coherent o data m ∧ m.header = ⟨type,UInt32.ofNat data.length,id,hash,error⟩ := by
  simp only [build,Option.map_eq_some_iff] at h
  obtain ⟨a,ha,rfl⟩ := h
  have hc := ofData_carries ha
  have hh := ofData_header ha
  simp only [setType,setId,setHash,setErrcode,storeHeader_storeHeader,storeHeader_header]
  exact ⟨hc.storeHeader rfl,by rw [hh]⟩

/-! ### Parsing -/

theorem ofImage_slice_length (abi : Abi) (m : Message) :
    (Header.ofImage abi.order (m.buffer.slice 0 20)).length.toNat = m.announced abi := rfl

theorem announced_lt (abi : Abi) (m : Message) : m.announced abi < 2 ^ 32 := UInt32.toNat_lt _

theorem parseHeader_accepts {abi : Abi} {m : Message}
    (h : abi.size (m.announced abi + 20) ≤ 4096) :
    m.parseHeader abi = (true,{m with
      header := Header.ofImage abi.order (m.buffer.slice 0 20)
      bodyLength := m.announced abi}) := by
  simp only [parseHeader,headerLength_eq,sizeofHeader,ofImage_slice_length,maxDataLen]
  rw [if_neg (by omega),abi.size_of_lt (announced_lt abi m)]

theorem parseHeader_refuses {abi : Abi} {m : Message}
    (h : 4096 < abi.size (m.announced abi + 20)) :
    m.parseHeader abi = (false,{m with
      header := Header.ofImage abi.order (m.buffer.slice 0 20)}) := by
  simp only [parseHeader,headerLength_eq,sizeofHeader,ofImage_slice_length,maxDataLen]
  rw [if_pos (by omega)]

/-- Beyond 32 bits the guard is the comparison it looks like. -/
theorem size_announced (abi : Abi) (hw : 32 < abi.sizeBits) (m : Message) :
    abi.size (m.announced abi + 20) = m.announced abi + 20 := by
  have := announced_lt abi m
  exact abi.size_of_wide hw (by omega)

/-- On 32 bits the sum wraps for the last twenty lengths. -/
theorem size_announced_of_lt (abi : Abi) (m : Message) (h : m.announced abi < 2 ^ 32 - 20) :
    abi.size (m.announced abi + 20) = m.announced abi + 20 :=
  abi.size_of_lt (by omega)

/-- Header bytes and body of the message now in the buffer. -/
def wireImage (m : Message) : Bytes := m.buffer.slice 0 (20 + m.bodyLength)

/-- The state `parse_header` leaves behind when it accepts. -/
structure Parsed (abi : Abi) (m : Message) : Prop where
  header : m.header = Header.ofImage abi.order (m.buffer.slice 0 20)
  bodyLength : m.bodyLength = m.announced abi

/-- Storing a read leaves the header image alone unless it is the header read. -/
theorem announced_of_slice {abi : Abi} {m m' : Message}
    (h : m'.buffer.slice 0 20 = m.buffer.slice 0 20) : m'.announced abi = m.announced abi := by
  simp only [announced,h]

theorem wireImage_append (m : Message) :
    m.wireImage = m.buffer.slice 0 20 ++ m.buffer.slice 20 m.bodyLength := by
  rw [wireImage,Buffer.slice_add]

end Message
end SindiaRpc.MessageFrames
