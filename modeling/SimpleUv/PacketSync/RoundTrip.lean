import SimpleUv.PacketSync.Framing

/-!
# Frames on the wire

The frames of the program, with its delimiters. The reference parser delivers each of them in one
decision (`decide_wire`), so the parser delivers what was framed, however the stream is cut
(`feed_wires`, `recvdata_packetData2`).
-/

namespace SimpleUv

open Foundations

/-- A packet to be framed: its delimiters are those of the program, and its length is that of its
data and below the bound of the parser. -/
structure Outgoing (B : Build) where
  packet : NetPacket
  data : Option (List Byte)
  packchar : List.Vector Byte B.headLen
  header_eq : packet.header = serverPacketHead
  tail_eq : packet.tail = serverPacketTail
  datalen_eq : packet.datalen = (data.getD []).length
  datalen_le : packet.datalen ≤ 2 ^ 31 - 2

namespace Outgoing

variable {B : Build} (o : Outgoing B)

/-- The bytes the data pointer points to. -/
def payload : List Byte := o.data.getD []

/-- The packet with its checksum. -/
def checked : NetPacket := { o.packet with check := checksum B o.payload }

/-- The frame. -/
def wire : List Byte := ((packetData2 B o.packet o.data o.packchar).map Prod.snd).getD []

/-- What the other side should be given: the four integer fields pass through 32 bits. -/
def delivered : Packet := ⟨o.checked.truncate, o.payload⟩

/-- The frame without its head byte. -/
def tailBytes : List Byte :=
  netPacketToChar B o.checked o.packchar.toList ++ o.payload ++ [serverPacketTail]

/-- The arguments of `PacketData2`. -/
def framing : Framing B := ⟨o.packet, o.data, o.packchar, o.datalen_eq⟩

theorem datalen_payload : o.packet.datalen = o.payload.length := o.datalen_eq

theorem packetData2_eq : packetData2 B o.packet o.data o.packchar =
    some (o.checked, serverPacketHead :: o.tailBytes) := by
  have h := o.framing.packetData2_eq
  rw [Framing.tailBytes, show o.framing.packet.header = _ from o.header_eq,
    show o.framing.packet.tail = _ from o.tail_eq] at h
  exact h

theorem wire_eq : o.wire = serverPacketHead :: o.tailBytes := by
  rw [wire, o.packetData2_eq]
  rfl

theorem length_header :
    (netPacketToChar B o.checked o.packchar.toList).length = B.headLen :=
  o.framing.length_header

theorem length_tailBytes : o.tailBytes.length = B.headLen + (o.payload.length + 1) := by
  rw [tailBytes, List.length_append, List.length_append, o.length_header, List.length_singleton,
    Nat.add_assoc]

theorem truncate_checked : o.checked.truncate.header = serverPacketHead ∧
    o.checked.truncate.tail = serverPacketTail ∧
      o.checked.truncate.datalen = o.payload.length := by
  have hlen := o.datalen_payload
  have hle := o.datalen_le
  refine ⟨o.header_eq, o.tail_eq, ?_⟩
  show o.packet.datalen % 2 ^ 32 = o.payload.length
  rw [Nat.mod_eq_of_lt (by omega), hlen]

theorem candidate_wire (ys : List Byte) :
    candidate B serverPacketHead serverPacketTail (o.wire ++ ys) = some o.checked.truncate := by
  have h := o.framing.candidate_wire ys
  rwa [show o.framing.packet.header = _ from o.header_eq,
    show o.framing.packet.tail = _ from o.tail_eq] at h

/-- **The reference parser delivers a frame in one decision.** -/
theorem decide_wire (ys : List Byte) :
    (reference B serverPacketHead serverPacketTail).decide (o.wire ++ ys) =
      some (o.wire.length, some o.delivered) := by
  have h := o.framing.decide_wire (o.datalen_le.trans_lt (by norm_num)) (· == serverPacketTail) ys
  rw [show o.framing.packet.header = _ from o.header_eq,
    show o.framing.packet.tail = _ from o.tail_eq, if_pos (beq_self_eq_true _)] at h
  exact h

end Outgoing

/-! ## Streams of frames -/

section Streams

variable {B : Build}

/-- The stream of frames. -/
def wires (os : List (Outgoing B)) : List Byte := os.flatMap Outgoing.wire

theorem run_wires (os : List (Outgoing B)) (ys : List Byte) :
    (reference B serverPacketHead serverPacketTail).Steps (wires os ++ ys)
      (os.map Outgoing.delivered) ys := by
  induction os with
  | nil => exact .refl _
  | cons o os ih =>
    have hstep := Decoder.Steps.one (o.decide_wire (wires os ++ ys))
    rw [List.drop_left] at hstep
    rw [wires, List.flatMap_cons, List.append_assoc]
    exact hstep.trans ih

/-- The tail byte of the program is the same for both tests. -/
theorem signedScan_program (B : Build) : signedScan B serverPacketHead serverPacketTail =
    reference B serverPacketHead serverPacketTail := signedScan_eq (by decide)

/-- Everywhere on a stream of frames, the lengths are in range and nothing is rejected. -/
theorem everywhere_wires {P : List Byte → Prop} (h₀ : P [])
    (hP : ∀ (o : Outgoing B) ys, P (o.wire ++ ys)) (os : List (Outgoing B)) :
    (reference B serverPacketHead serverPacketTail).Everywhere P (wires os) := by
  induction os with
  | nil => exact .of_decide_none h₀ rfl
  | cons o os ih =>
    rw [wires, List.flatMap_cons]
    refine .of_decide (hP o _) (o.decide_wire _) ?_
    rw [List.drop_left]
    exact ih

theorem lengthAtMost_wires (os : List (Outgoing B)) :
    (reference B serverPacketHead serverPacketTail).Everywhere
      (LengthAtMost B serverPacketHead serverPacketTail (2 ^ 31 - 2)) (wires os) := by
  refine everywhere_wires (.of_none rfl) (fun o ys c hc => ?_) os
  rw [o.candidate_wire] at hc
  obtain rfl := Option.some.inj hc
  rw [o.truncate_checked.2.2, ← o.datalen_payload]
  exact o.datalen_le

/-- No frame is rejected. -/
theorem roomFor_wires (cap : ℕ) (os : List (Outgoing B)) :
    CPacketSync.RoomFor B serverPacketHead serverPacketTail cap (wires os) := by
  right
  rw [signedScan_program]
  refine everywhere_wires (fun c hc => by cases hc) (fun o ys c _ hd => ?_) os
  have hsigned := congrArg (fun D => D.decide (o.wire ++ ys)) (signedScan_program B)
  simp only [o.decide_wire] at hsigned
  rw [hsigned] at hd
  simp at hd

namespace CPacketSync

/-- **However a stream of frames is cut, the parser delivers the packets that were framed.** -/
theorem feed_wires (u : Uninit) (os : List (Outgoing B)) (cs : List (Chunk B))
    (hcut : streamOf cs = wires os) :
    ∃ q out, (fresh u serverPacketHead serverPacketTail).feed B cs = .done q out ∧
      out.map Delivery.packet = os.map Outgoing.delivered := by
  obtain ⟨q, out, hf, -, hs, hrun⟩ := feed_of_bounded (B := B) (by decide) cs
    (inv_fresh B u serverPacketHead serverPacketTail le_rfl)
    (by rw [hcut]; exact roomFor_wires _ os)
    rfl (by
      rw [hcut, signedScan_program]
      exact lengthAtMost_wires os)
  refine ⟨q, out, hf, ?_⟩
  have hwires := run_wires os []
  rw [List.append_nil] at hwires
  rw [map_packet_eq_run hs hrun, signedScan_program, pending_fresh, List.nil_append, hcut, hwires.run_eq]
  exact List.append_nil _

/-- **The frame round trip**: each packet is framed, and the parser delivers exactly the packets
that were framed, in order. -/
theorem recvdata_packetData2 (B : Build) (u : Uninit) (os : List (Outgoing B))
    (hfields : ∀ o ∈ os, o.packet.version < 2 ^ 32 ∧ o.packet.type < 2 ^ 32 ∧
      o.packet.reserve < 2 ^ 32)
    (cs : List (Chunk B)) (hcut : streamOf cs = wires os) :
    (∀ o ∈ os, packetData2 B o.packet o.data o.packchar = some (o.checked, o.wire)) ∧
    ∃ q out, (fresh u serverPacketHead serverPacketTail).feed B cs = .done q out ∧
      out.map Delivery.packet = os.map fun o => ⟨o.checked, o.payload⟩ := by
  refine ⟨fun o _ => by rw [o.packetData2_eq, o.wire_eq], ?_⟩
  obtain ⟨q, out, hf, hout⟩ := feed_wires u os cs hcut
  refine ⟨q, out, hf, ?_⟩
  rw [hout]
  refine List.map_congr_left fun o ho => ?_
  obtain ⟨hv, ht, hr⟩ := hfields o ho
  have hd : o.checked.datalen < 2 ^ 32 := o.datalen_le.trans_lt (by norm_num)
  rw [Outgoing.delivered, NetPacket.truncate_eq (p := o.checked) hv ht hd hr]

/-- A packet of one byte, which is the head byte. -/
def smallOutgoing : Outgoing zeroBuild where
  packet := ⟨1, serverPacketHead, serverPacketTail, .replicate 16 0, 5, 1, 0⟩
  data := some [serverPacketHead]
  packchar := .replicate _ 0
  header_eq := rfl
  tail_eq := rfl
  datalen_eq := rfl
  datalen_le := by decide

theorem recvdata_packetData2_small :
    (∀ o ∈ [smallOutgoing], packetData2 zeroBuild o.packet o.data o.packchar =
      some (o.checked, o.wire)) ∧
    ∃ q out, (fresh zeroUninit serverPacketHead serverPacketTail).feed zeroBuild
        [⟨(wires [smallOutgoing]).take 52, by decide⟩,
          ⟨(wires [smallOutgoing]).drop 52, by decide⟩] = .done q out ∧
      out.map Delivery.packet = [smallOutgoing].map fun o => ⟨o.checked, o.payload⟩ :=
  recvdata_packetData2 zeroBuild zeroUninit [smallOutgoing] (by decide) _
    (by simp only [streamOf_cons, streamOf_nil, List.append_nil, List.take_append_drop])

end CPacketSync

end Streams

end SimpleUv
