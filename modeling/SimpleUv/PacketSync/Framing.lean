import SimpleUv.PacketSync.Refinement

/-!
# Frames

`PacketData2` writes a frame: the head byte, the header as it stands in memory, the payload, the tail
byte. The delimiters are those of the packet, and the bytes of the header behind the 34 written ones are
those of an uninitialised array. On a frame with the delimiters it was told, the reference parser takes
one decision (`Framing.decide_wire`): it delivers the frame if the test of the last byte accepts the
tail, and drops the head byte otherwise.
-/

namespace SimpleUv

open Foundations

/-- The `n` bytes a data pointer points to, which may be null. -/
def pointed (data : Option (List Byte)) (n : ℕ) : Option (List Byte) :=
  match data with
  | none => if n = 0 then some [] else none
  | some base => load base base.length 0 n

/-- `PacketData2`: the packet with its checksum, and the frame. `packchar` is the uninitialised
array of the header. -/
def packetData2 (B : Build) (packet : NetPacket) (data : Option (List Byte))
    (packchar : List.Vector Byte B.headLen) : Option (NetPacket × List Byte) := do
  let body ← pointed data packet.datalen
  let check := if packet.datalen = 0 ∨ data = none then .replicate 16 0 else B.md5 body
  let packet := { packet with check := check }
  some (packet, [packet.header] ++ netPacketToChar B packet packchar.toList ++ body ++ [packet.tail])

/-- The uninitialised memory `CTCPHandle::PacketData` and `PacketData2` start from. -/
structure Locals (B : Build) where
  tmppack : NetPacket
  packchar : List.Vector Byte B.headLen

/-- The packet `CTCPHandle::PacketData` fills in, for an object with the bytes `msg`. -/
def Locals.packet {B : Build} (l : Locals B) (msg : List Byte) (nMsgType : ℕ) : NetPacket :=
  { l.tmppack with
    type := nMsgType, header := serverPacketHead, tail := serverPacketTail, datalen := msg.length }

/-- `CTCPHandle::PacketData`: the string it returns. -/
def CTCPHandle.packetData (B : Build) (l : Locals B) (msg : List Byte) (nMsgType : ℕ) : List Byte :=
  ((packetData2 B (l.packet msg nMsgType) (some msg) l.packchar).map Prod.snd).getD []

/-- The arguments of `PacketData2`, and what it finds in its array: the length is that of the data. -/
structure Framing (B : Build) where
  packet : NetPacket
  data : Option (List Byte)
  packchar : List.Vector Byte B.headLen
  datalen_eq : packet.datalen = (data.getD []).length

namespace Framing

variable {B : Build} (f : Framing B)

/-- The bytes the data pointer points to. -/
def payload : List Byte := f.data.getD []

/-- The packet with its checksum. -/
def checked : NetPacket := { f.packet with check := checksum B f.payload }

/-- The frame. -/
def wire : List Byte := ((packetData2 B f.packet f.data f.packchar).map Prod.snd).getD []

/-- The frame without its head byte. -/
def tailBytes : List Byte :=
  netPacketToChar B f.checked f.packchar.toList ++ f.payload ++ [f.packet.tail]

theorem datalen_payload : f.packet.datalen = f.payload.length := f.datalen_eq

theorem packetData2_eq : packetData2 B f.packet f.data f.packchar =
    some (f.checked, f.packet.header :: f.tailBytes) := by
  have hlen := f.datalen_payload
  have hbody : pointed f.data f.packet.datalen = some f.payload := by
    unfold pointed
    cases hd : f.data with
    | none =>
      have h₀ : f.packet.datalen = 0 := by rw [hlen, payload, hd]; rfl
      simp only [h₀, if_true, payload, hd]
      rfl
    | some base =>
      have hp : f.payload = base := by rw [payload, hd]; rfl
      rw [hp] at hlen ⊢
      simp only [hlen]
      rw [load_eq (by omega) le_rfl, slice_self]
  have hcheck : (if f.packet.datalen = 0 ∨ f.data = none then .replicate 16 0
      else B.md5 f.payload) = checksum B f.payload := by
    unfold checksum
    refine if_congr ?_ rfl rfl
    rw [hlen, List.length_eq_zero_iff]
    constructor
    · rintro (h | h)
      · exact h
      · rw [payload, h]
        rfl
    · exact .inl
  simp only [packetData2, hbody, hcheck, Option.bind_eq_bind, Option.bind_some]
  show some (f.checked, [f.packet.header] ++ netPacketToChar B f.checked f.packchar.toList ++
    f.payload ++ [f.packet.tail]) = _
  rw [tailBytes, List.append_assoc, List.append_assoc, List.append_assoc, List.singleton_append]

theorem wire_eq : f.wire = f.packet.header :: f.tailBytes := by
  rw [wire, f.packetData2_eq]
  rfl

/-- The header of a frame decodes to the packet. -/
theorem charToNetPacket_tailBytes (ys : List Byte) :
    charToNetPacket B (f.tailBytes ++ ys) = f.checked.truncate := by
  rw [tailBytes, List.append_assoc, List.append_assoc, charToNetPacket_netPacketToChar]

theorem length_header :
    (netPacketToChar B f.checked f.packchar.toList).length = B.headLen := by
  have := headLen_ge B
  rw [length_netPacketToChar, f.packchar.toList_length]
  rwa [f.packchar.toList_length]

theorem length_tailBytes : f.tailBytes.length = B.headLen + (f.payload.length + 1) := by
  rw [tailBytes, List.length_append, List.length_append, f.length_header, List.length_singleton,
    Nat.add_assoc]

theorem candidate_wire (ys : List Byte) :
    candidate B f.packet.header f.packet.tail (f.wire ++ ys) = some f.checked.truncate := by
  have hx := f.charToNetPacket_tailBytes ys
  rw [wire_eq, List.cons_append, candidate_of_header ?_ (by rw [hx]; rfl) (by rw [hx]; rfl), hx]
  rw [List.length_append, length_tailBytes]
  omega

/-- **The parser takes one decision on a frame**: it delivers the frame when the tail passes the test
of the last byte, and else drops the head byte. -/
theorem decide_wire (hlen : f.packet.datalen < 2 ^ 32) (last : Byte → Bool) (ys : List Byte) :
    (scan B f.packet.header f.packet.tail last).decide (f.wire ++ ys) =
      if last f.packet.tail then some (f.wire.length, some ⟨f.checked.truncate, f.payload⟩)
      else some (1, none) := by
  have hd : f.checked.truncate.datalen = f.payload.length :=
    (Nat.mod_eq_of_lt hlen).trans f.datalen_payload
  have hc := f.candidate_wire ys
  have hl := f.length_tailBytes
  have hh := f.length_header
  rw [wire_eq, List.cons_append] at hc ⊢
  have hpayload : slice (f.tailBytes ++ ys) B.headLen f.payload.length = f.payload := by
    rw [slice_append_left (by omega), tailBytes, slice_append_left (by
      rw [List.length_append, hh]), slice_append_right hh.le, hh, Nat.sub_self, slice_self]
  have hlast : (f.tailBytes ++ ys).getD (B.headLen + f.payload.length) 0 = f.packet.tail := by
    rw [List.getD_append _ _ _ _ (by omega), tailBytes, List.getD_append_right _ _ _ _ (by
      rw [List.length_append, hh]), List.length_append, hh, Nat.sub_self]
    rfl
  have hcheck : f.checked.truncate.check = checksum B f.payload := rfl
  rw [decide_complete hc (by rw [hd, List.length_append]; omega), hd, hlast, hpayload, hcheck,
    List.length_cons, hl]
  by_cases ht : last f.packet.tail
  · rw [if_neg (by simp [ht]), if_pos ht, Nat.add_assoc, Nat.add_comm 1]
  · rw [if_pos (.inl ht), if_neg ht]

end Framing

/-- A frame in memory, which takes less than half of the address space. -/
structure Frame (B : Build) extends Framing B where
  size : 2 * toFraming.wire.length < B.sizeT.modulus

/-- The call that receives a frame in one piece. -/
def Frame.chunk {B : Build} (f : Frame B) : Chunk B := ⟨f.wire, f.size⟩

end SimpleUv
