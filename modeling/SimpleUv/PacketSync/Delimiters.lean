import SimpleUv.PacketSync.Framing
import SimpleUv.PacketSync.Deliveries
import SimpleUv.PacketSync.Overlong

/-!
# Any two delimiters

`Start` takes any two bytes. The head byte is searched with `memchr` and compared with the header as an
`unsigned char`, but the last byte of a frame is a `char` when it is compared with the tail: with a tail
of `0x80` or above no frame is accepted. Below it, the two may be any bytes, equal or not, and the
payload may contain them. The other limit is the length, which passes through an `int`.

A frame is delivered unchanged, however it is cut, exactly when its tail is below `0x80`, its payload has
at most `2 ^ 31 - 2` bytes, and the other integer fields of its header have 32 bits (`faithful_iff`).
-/

namespace SimpleUv

open Foundations

variable {B : Build}

namespace Frame

variable (f : Frame B)

/-- The parser is told the delimiters of the frame. -/
abbrev parser (u : Uninit) : CPacketSync :=
  CPacketSync.fresh u f.packet.header f.packet.tail

theorem decide_signed (htail : f.packet.tail.toNat < 128) (hlen : f.packet.datalen < 2 ^ 32) :
    (signedScan B f.packet.header f.packet.tail).decide f.wire =
      some (f.wire.length, some ⟨f.checked.truncate, f.payload⟩) := by
  have h := f.decide_wire hlen (fun b => charToInt b == (f.packet.tail.toNat : ℤ)) []
  rwa [List.append_nil, if_pos (by rw [charToInt_of_lt htail, beq_self_eq_true])] at h

/-- Everywhere on the frame there is the frame, or nothing. -/
theorem everywhere_wire {P : List Byte → Prop} (htail : f.packet.tail.toNat < 128)
    (hlen : f.packet.datalen < 2 ^ 32) (h₀ : P []) (hP : P f.wire) :
    (signedScan B f.packet.header f.packet.tail).Everywhere P f.wire := by
  refine .of_decide hP (f.decide_signed htail hlen) ?_
  rw [List.drop_length]
  exact .of_decide_none h₀ rfl

/-- **A frame is delivered**, however it is cut. -/
theorem delivered (htail : f.packet.tail.toNat < 128) (hlen : f.payload.length ≤ 2 ^ 31 - 2)
    (u : Uninit) (cs : List (Chunk B)) (hcut : streamOf cs = f.wire) :
    ∃ q out, (f.parser u).feed B cs = .done q out ∧
      out.map Delivery.packet = [⟨f.checked.truncate, f.payload⟩] := by
  have hdata := f.datalen_payload
  have hd₃₂ : f.packet.datalen < 2 ^ 32 := by omega
  have hdec := f.decide_signed htail hd₃₂
  have hroom : CPacketSync.RoomFor B f.packet.header f.packet.tail bufferSize f.wire :=
    .inr (f.everywhere_wire htail hd₃₂ (fun c hc => by cases hc) fun c _ hd => by
      rw [hdec] at hd
      simp at hd)
  have hlength : (signedScan B f.packet.header f.packet.tail).Everywhere
      (LengthAtMost B f.packet.header f.packet.tail (2 ^ 31 - 2)) f.wire := by
    refine f.everywhere_wire htail hd₃₂ (.of_none rfl) fun c hc => ?_
    have hwire := f.candidate_wire []
    rw [List.append_nil, hc] at hwire
    obtain rfl := Option.some.inj hwire
    exact (Nat.mod_le _ _).trans (hdata.trans_le hlen)
  obtain ⟨q, out, hf, -, hs, hrun⟩ := CPacketSync.feed_of_bounded (by decide) cs
    (CPacketSync.inv_fresh B u f.packet.header f.packet.tail le_rfl) (by rwa [hcut]) rfl
    (by rwa [hcut])
  refine ⟨q, out, hf, ?_⟩
  have hrunwire := (Decoder.Steps.one hdec).run_eq
  rw [List.drop_length] at hrunwire
  rw [CPacketSync.map_packet_eq_run hs hrun, CPacketSync.pending_fresh, List.nil_append, hcut,
    hrunwire]
  rfl

/-- **What a delivery of the frame needs**: a call that receives it in one piece and delivers its
length has a tail below `0x80` and a length that passes through an `int`. -/
theorem bounds_of_delivered (u : Uninit) {q : CPacketSync} {out : List Delivery}
    (hf : (f.parser u).feed B [f.chunk] = .done q out) {d : Delivery} (hd : d ∈ out)
    (hlen : d.packethead.datalen = f.packet.datalen) :
    f.packet.tail.toNat < 128 ∧ f.payload.length ≤ 2 ^ 31 - 2 := by
  have hsound := CPacketSync.feed_sound (CPacketSync.keeping_fresh u _ _) hf d hd
  refine ⟨hsound.tail_lt, ?_⟩
  have hdata := f.datalen_payload
  have hd₃₂ : f.packet.datalen < 2 ^ 32 := by
    obtain ⟨chars, hchars⟩ := hsound.decoded
    rw [← hlen, hchars]
    exact BitVec.isLt _
  by_contra hbig
  have hcand := f.candidate_wire []
  rw [List.append_nil] at hcand
  have hwire : f.wire.length = B.headLen + (f.payload.length + 1) + 1 := by
    rw [f.wire_eq, List.length_cons, f.length_tailBytes]
  have hH := headLen_le B
  have hempty : out = [] := CPacketSync.feed_overlong u f.chunk hcand
    (by
      show 2 ^ 31 ≤ f.packet.datalen % 2 ^ 32 + 1
      rw [Nat.mod_eq_of_lt hd₃₂]
      omega)
    (by
      show f.wire.length < bufferSize + 2 ^ 32
      rw [bufferSize_eq]
      omega) hf
  rw [hempty] at hd
  cases hd

/-- The frame is delivered exactly once and unchanged, by every fresh parser with its delimiters and
however it is cut. -/
def Faithful : Prop :=
  ∀ (u : Uninit) (cs : List (Chunk B)), streamOf cs = f.wire →
    ∃ q out, (f.parser u).feed B cs = .done q out ∧
      out.map Delivery.packet = [⟨f.checked, f.payload⟩]

/-- **Exactly the frames with a tail below `0x80` and lengths in range are delivered unchanged.** -/
theorem faithful_iff : f.Faithful ↔
    f.packet.tail.toNat < 128 ∧ f.payload.length ≤ 2 ^ 31 - 2 ∧
      f.packet.version < 2 ^ 32 ∧ f.packet.type < 2 ^ 32 ∧ f.packet.reserve < 2 ^ 32 := by
  have hdata := f.datalen_payload
  constructor
  · intro h
    obtain ⟨q, out, hf, hout⟩ := h zeroUninit [f.chunk] (List.append_nil _)
    obtain ⟨d, rfl, hd⟩ := List.map_eq_singleton_iff.1 hout
    have hhead : d.packethead = f.checked := congrArg Packet.packethead hd
    obtain ⟨htail, hlen⟩ := f.bounds_of_delivered zeroUninit hf (List.mem_singleton_self d)
      (by rw [hhead]; rfl)
    have hsound := CPacketSync.feed_sound (CPacketSync.keeping_fresh zeroUninit _ _) hf d
      (List.mem_singleton_self d)
    have htruncate := hsound.decoded.truncate_eq
    rw [hhead] at htruncate
    refine ⟨htail, hlen, ?_, ?_, ?_⟩
    · rw [show f.packet.version = f.checked.truncate.version by rw [htruncate]; rfl]
      exact Nat.mod_lt _ (by norm_num)
    · rw [show f.packet.type = f.checked.truncate.type by rw [htruncate]; rfl]
      exact Nat.mod_lt _ (by norm_num)
    · rw [show f.packet.reserve = f.checked.truncate.reserve by rw [htruncate]; rfl]
      exact Nat.mod_lt _ (by norm_num)
  · rintro ⟨htail, hlen, hv, ht, hr⟩ u cs hcut
    obtain ⟨q, out, hf, hout⟩ := f.delivered htail hlen u cs hcut
    have hd : f.checked.datalen < 2 ^ 32 := by
      show f.packet.datalen < 2 ^ 32
      omega
    rw [NetPacket.truncate_eq (p := f.checked) hv ht hd hr] at hout
    exact ⟨q, out, hf, hout⟩

/-- An empty packet between a head byte `0x01` and a tail byte `0x80`. -/
def highTail : Frame zeroBuild where
  packet := ⟨0, 0x01, 0x80, .replicate 16 0, 0, 0, 0⟩
  data := none
  packchar := .replicate _ 0
  datalen_eq := rfl
  size := by decide

/-- It is not delivered. -/
theorem highTail_not_faithful : ¬ highTail.Faithful := by
  intro h
  obtain ⟨q, out, hf, hout⟩ := h zeroUninit [highTail.chunk] (List.append_nil _)
  obtain ⟨d, rfl, hd⟩ := List.map_eq_singleton_iff.1 hout
  have hlow := (highTail.bounds_of_delivered zeroUninit hf (List.mem_singleton_self d)
    (by rw [show d.packethead = highTail.checked from congrArg Packet.packethead hd]; rfl)).1
  exact absurd hlow (by decide)

end Frame

end SimpleUv
