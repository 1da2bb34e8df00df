import SindiaRpc.ConnectionHistories
import SindiaRpc.RpcProcess

/-!
# What the messages of a stream carry

All messages that are passed to `Write` are built by the constructor and the
setters, so their frames can be told apart on the stream. A reader that has
received some first bytes of such frames has dispatched messages with the
contents of the first of them; once nothing is left to send, to arrive or to
read it has dispatched them all.
-/
namespace SindiaRpc.StreamContents
open MessageFrames RpcChannel RpcProcess ConnectionState ConnectionWrites ReadLoop StreamReading
  ConnectionHistories

def Built (o : ByteOrder) (m : Message) : Prop := ∃ x : Outgoing, x.build o = some m

section Contents
variable {o : ByteOrder} {x : Outgoing} {m d : Message} {ds ms : List Message} {type : MsgType}

theorem content_of_build (h : x.build o = some m) : content m = x.content := by
  obtain ⟨hc,hh⟩ := Message.build_spec h
  have hlen : m.dataLength = x.data.length := hc.bodyLength
  simp only [content,Outgoing.content,Message.getType,Message.getId,Message.getHash,
    Message.getErrcode,hh,hlen,hc.toCarries.dataString]

/-- Equal wire images carry equal contents. -/
theorem content_of_image (hm : Built o m) (hd : Delivered (lp64 o) d)
    (h : d.wireImage = m.frame (lp64 o)) : content d = content m := by
  obtain ⟨x,hx⟩ := hm
  rw [content_of_frame hx (wireMessage hd) h,content_of_build hx]

theorem contents_of_images (hd : ∀ d ∈ ds, Delivered (lp64 o) d) (hm : ∀ m ∈ ms, Built o m)
    (h : ds.map Message.wireImage <+: ms.map (Message.frame (lp64 o))) :
    ds.map content <+: ms.map content := by
  induction ds generalizing ms with
  | nil => exact List.nil_prefix
  | cons d ds ih =>
      cases ms with
      | nil => exact absurd (List.prefix_nil.mp h) (by simp)
      | cons m ms =>
          rw [List.map_cons,List.map_cons,List.cons_prefix_cons] at h ⊢
          exact ⟨content_of_image (hm m (by simp)) (hd d (by simp)) h.1,
            ih (fun d hd' => hd d (by simp [hd'])) (fun m hm' => hm m (by simp [hm'])) h.2⟩

theorem isFrame_frames (hm : ∀ m ∈ ms, Built o m) :
    ∀ f ∈ ms.map (Message.frame (lp64 o)), (framing (lp64 o)).IsFrame f := by
  intro f hf
  obtain ⟨m,hmem,rfl⟩ := List.mem_map.mp hf
  obtain ⟨x,hx⟩ := hm m hmem
  exact isFrame_build hx

theorem isFrame_images (hd : ∀ d ∈ ds, Delivered (lp64 o) d) :
    ∀ f ∈ ds.map Message.wireImage, (framing (lp64 o)).IsFrame f := by
  intro f hf
  obtain ⟨d,hmem,rfl⟩ := List.mem_map.mp hf
  exact isFrame_wireImage (hd d hmem)

/-- What is read from the first bytes of some frames carries the contents of the
first of them. -/
theorem contents_in_order (hd : ∀ d ∈ ds, Delivered (lp64 o) d) (hm : ∀ m ∈ ms, Built o m)
    (h : images ds <+: frames (lp64 o) ms) : ds.map content <+: ms.map content :=
  contents_of_images hd hm (Framing.prefix_of_flatten _ (isFrame_images hd) (isFrame_frames hm) h)

/-- The type is part of the content. -/
theorem filter_content (type : MsgType) (ms : List Message) :
    (ms.filter fun m => HasType m type).map content =
      (ms.map content).filter fun x => x.type = type.code.toNat := by
  rw [List.filter_map]
  rfl

theorem id_of_content (h : content d = content m) : d.header.id = m.header.id :=
  UInt32.toNat_inj.mp (congrArg Content.id h)

theorem hash_of_content (h : content d = content m) : d.header.hash = m.header.hash :=
  UInt32.toNat_inj.mp (congrArg Content.hash h)

theorem type_of_content (h : content d = content m) : HasType d type ↔ HasType m type := by
  have heq : d.getType = m.getType := congrArg Content.type h
  rw [HasType,HasType,heq]

theorem body_of_content (h : content d = content m) : d.dataString = m.dataString :=
  congrArg Content.body h

end Contents

section Rest
variable {abi : Abi} {o : ByteOrder} {s : Connection} {ms : List Message}

/-- An open socket with nothing left to send has sent all it was given. -/
theorem wire_of_idle (h : Sequenced abi s) (ho : s.isOpen = true) (hi : WritesIdle s) :
    s.wire = frames abi s.written := by
  have htotal := (h.ordered ho).total
  rw [(hi.sink abi).flatten,List.append_nil] at htotal
  exact htotal.symm

/-- A reader at rest that has received some frames has dispatched them all. -/
theorem contents_at_rest (h : ReadInv (lp64 o) (view s)) (hs : Healthy s) (hq : Quiescent s)
    (hm : ∀ m ∈ ms, Built o m) (hrec : s.received = frames (lp64 o) ms) :
    s.dispatched.map content = ms.map content := by
  obtain ⟨rest,hrest,hstuck⟩ := rest_stuck h hs hq
  have hsplit : (framing (lp64 o)).split s.received = (s.dispatched.map Message.wireImage,rest) :=
    Framing.split_eq _ (isFrame_images h.delivered) (hstuck.imp_right And.left) hrest
  have hall : (framing (lp64 o)).split s.received = (ms.map (Message.frame (lp64 o)),[]) :=
    Framing.split_eq _ (isFrame_frames hm) (Framing.stuck_nil _) (by rw [hrec,List.append_nil]; rfl)
  have himages : s.dispatched.map Message.wireImage = ms.map (Message.frame (lp64 o)) :=
    (Prod.mk.inj (hsplit.symm.trans hall)).1
  have hfront : s.dispatched.map content <+: ms.map content :=
    contents_of_images h.delivered hm (himages ▸ List.prefix_refl _)
  have hlen := congrArg List.length himages
  rw [List.length_map,List.length_map] at hlen
  exact hfront.eq_of_length (by rw [List.length_map,List.length_map,hlen])

end Rest
end SindiaRpc.StreamContents
