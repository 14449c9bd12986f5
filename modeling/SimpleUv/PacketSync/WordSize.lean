import SimpleUv.PacketSync.Delimiters

/-!
# Peers of different word size

The header codec writes 34 characters at fixed offsets, but a frame has `NET_PACKAGE_HEADLEN` bytes of
header, which is the size of the structure: 34 bytes where `size_t` has 4 bytes, 50 where it has 8. Two
builds that differ in the width of `size_t` therefore look for the payload at different places. A
receiver with the wider type waits for 16 bytes that never come (`decide_wider`); one with the narrower
type takes the 16 bytes behind the characters, which nobody has written, for the payload
(`not_intact_narrower`).

What `PacketData2` makes of its arguments is delivered intact exactly by the receivers with the same
width, up to the limits that every frame has (`intact_iff`).
-/

namespace SimpleUv

open Foundations

/-- The same program built for another width of `size_t`. -/
def Build.withWord (A : Build) (w : SizeT) (junk : ℕ → Byte) : Build :=
  { A with sizeT := w, junk := junk }

/-- What the callback is given apart from the fields that only the protocol uses. -/
def Delivery.content (d : Delivery) : ℕ × ℕ × List Byte :=
  (d.packethead.type, d.packethead.datalen, d.packet.payload)

/-- A byte that is neither of two. -/
theorem exists_byte_ne (a b : Byte) : ∃ x : Byte, x ≠ a ∧ x ≠ b := by
  by_contra h
  push Not at h
  have h₀ := h 0
  have h₁ := h 1
  have h₂ := h 2
  grind

namespace Frame

variable {A : Build} (f : Frame A) {w : SizeT} {junk : ℕ → Byte}

theorem length_wire : f.wire.length = A.headLen + f.payload.length + 2 := by
  rw [f.wire_eq, List.length_cons, f.length_tailBytes]
  omega

/-- The same arguments, with another content of the uninitialised array. -/
def holding (packchar : List.Vector Byte A.headLen) : Frame A where
  toFraming := { f.toFraming with packchar := packchar }
  size := by
    have h := f.size
    rw [f.length_wire] at h
    rw [Framing.wire_eq, List.length_cons, Framing.length_tailBytes]
    exact lt_of_eq_of_lt (by show 2 * (A.headLen + (f.payload.length + 1) + 1) = _; omega) h

/-- The frame is delivered intact by every fresh parser of a build of the given width, whatever the
uninitialised array holds and however the frame is cut. -/
def Intact (w : SizeT) (junk : ℕ → Byte) : Prop :=
  ∀ (packchar : List.Vector Byte A.headLen) (u : Uninit) (cs : List (Chunk (A.withWord w junk))),
    streamOf cs = (f.holding packchar).wire →
    ∃ q out, (f.parser u).feed (A.withWord w junk) cs = .done q out ∧
      out.map Delivery.content = [(f.packet.type, f.packet.datalen, f.payload)]

/-! ## The same width -/

/-- The frame as one of the receiver. -/
def received (f : Frame A) (junk : ℕ → Byte) : Frame (A.withWord A.sizeT junk) where
  packet := f.packet
  data := f.data
  packchar := f.packchar
  datalen_eq := f.datalen_eq
  size := f.size

theorem intact_of_bounds (htail : f.packet.tail.toNat < 128)
    (hlen : f.payload.length ≤ 2 ^ 31 - 2) (htype : f.packet.type < 2 ^ 32) :
    f.Intact A.sizeT junk := by
  intro packchar u cs hcut
  obtain ⟨q, out, hf, hout⟩ := ((f.holding packchar).received junk).delivered htail hlen u cs hcut
  refine ⟨q, out, hf, ?_⟩
  obtain ⟨d, rfl, hd⟩ := List.map_eq_singleton_iff.1 hout
  have hdata := f.datalen_payload
  have hhead := congrArg Packet.packethead hd
  have hpayload := congrArg Packet.payload hd
  rw [List.map_singleton, Delivery.content, hpayload, show d.packethead = _ from hhead]
  refine congrArg (fun x => [x]) (Prod.ext (Nat.mod_eq_of_lt htype) (Prod.ext ?_ rfl))
  exact Nat.mod_eq_of_lt (show f.packet.datalen < 2 ^ 32 by omega)

theorem bounds_of_intact (h : f.Intact A.sizeT junk) :
    f.packet.tail.toNat < 128 ∧ f.payload.length ≤ 2 ^ 31 - 2 ∧ f.packet.type < 2 ^ 32 := by
  obtain ⟨q, out, hf, hout⟩ := h f.packchar zeroUninit [(f.received junk).chunk] (List.append_nil _)
  obtain ⟨d, rfl, hd⟩ := List.map_eq_singleton_iff.1 hout
  have hsound := CPacketSync.feed_sound (CPacketSync.keeping_fresh zeroUninit _ _) hf d
    (List.mem_singleton_self d)
  obtain ⟨htail, hlen⟩ := (f.received junk).bounds_of_delivered zeroUninit hf
    (List.mem_singleton_self d) (congrArg (fun x => x.2.1) hd)
  refine ⟨htail, hlen, ?_⟩
  obtain ⟨chars, hchars⟩ := hsound.decoded
  rw [← show d.packethead.type = f.packet.type from congrArg Prod.fst hd, hchars]
  exact BitVec.isLt _

/-! ## A wider receiver -/

/-- Every build decodes the same header. -/
theorem charToNetPacket_withWord (w : SizeT) (junk : ℕ → Byte) :
    charToNetPacket (A.withWord w junk) f.tailBytes = f.checked.truncate := by
  have h := f.charToNetPacket_tailBytes []
  rwa [List.append_nil] at h

/-- A wider receiver waits for bytes that never come. -/
theorem decide_wider (junk : ℕ → Byte) (hA : A.sizeT = .b32) :
    (signedScan (A.withWord .b64 junk) f.packet.header f.packet.tail).decide f.wire = none := by
  have hl := f.length_tailBytes
  have hA' : A.headLen = 34 := by rw [Build.headLen, hA]; rfl
  have hR : (A.withWord .b64 junk).headLen = 50 := rfl
  have hpacket := f.charToNetPacket_withWord .b64 junk
  rw [f.wire_eq]
  rcases Nat.lt_or_ge f.tailBytes.length (A.withWord .b64 junk).headLen with hshort | hlong
  · exact decide_short rfl hshort
  · have hcand : candidate (A.withWord .b64 junk) f.packet.header f.packet.tail
        (f.packet.header :: f.tailBytes) = some _ :=
      candidate_of_header hlong (by rw [hpacket]; rfl) (by rw [hpacket]; rfl)
    refine decide_incomplete hcand ?_
    have hdatalen : f.checked.truncate.datalen = f.payload.length := by
      have hsize := f.size
      have hM : A.sizeT.modulus = 2 ^ 32 := by rw [hA]; rfl
      have hdata := f.datalen_payload
      rw [f.length_wire] at hsize
      exact (Nat.mod_eq_of_lt (show f.packet.datalen < 2 ^ 32 by omega)).trans hdata
    rw [hpacket, hdatalen]
    omega

theorem not_intact_wider (hA : A.sizeT = .b32) : ¬ f.Intact .b64 junk := by
  intro h
  have hsize := f.size
  have hM : A.sizeT.modulus = 2 ^ 32 := by rw [hA]; rfl
  have hM' : (A.withWord .b64 junk).sizeT.modulus = 2 ^ 64 := rfl
  have hnone := f.decide_wider junk hA
  let c : Chunk (A.withWord .b64 junk) := ⟨f.wire, by omega⟩
  have hcut : streamOf [c] = f.wire := List.append_nil _
  have hinv := CPacketSync.inv_fresh (A.withWord .b64 junk) zeroUninit f.packet.header
    f.packet.tail (le_refl bufferSize)
  have hroom : CPacketSync.RoomFor (A.withWord .b64 junk) f.packet.header f.packet.tail bufferSize
      f.wire :=
    .inr (.of_decide_none (fun h _ hd => by rw [hnone] at hd; cases hd) hnone)
  have hlength : (signedScan (A.withWord .b64 junk) f.packet.header f.packet.tail).Everywhere
      (LengthAtMost (A.withWord .b64 junk) f.packet.header f.packet.tail (2 ^ 31 - 2)) f.wire := by
    refine .of_decide_none (fun h hc => ?_) hnone
    rw [f.wire_eq] at hc
    obtain ⟨-, rfl, -⟩ := candidate_cons hc
    have hdata := f.datalen_payload
    rw [f.length_wire] at hsize
    rw [f.charToNetPacket_withWord]
    refine (Nat.mod_le _ _).trans ?_
    show f.packet.datalen ≤ 2 ^ 31 - 2
    omega
  obtain ⟨q, out, hf, hout⟩ := h f.packchar zeroUninit [c] hcut
  obtain ⟨q', out', hf', -, hs, hrun⟩ := CPacketSync.feed_of_bounded (by decide) [c] hinv
    (by rwa [hcut]) rfl (by rwa [hcut])
  rw [hf] at hf'
  cases hf'
  have hpackets := CPacketSync.map_packet_eq_run hs hrun
  rw [CPacketSync.pending_fresh, List.nil_append, hcut, Decoder.run_of_decide_none hnone] at hpackets
  obtain rfl : out = [] := List.map_eq_nil_iff.1 hpackets
  cases hout

/-! ## A narrower receiver -/

/-- Where a narrower receiver looks for the payload, there is the unwritten end of the header. -/
theorem tailBytes_holding (hA : A.sizeT = .b64) (x : Byte) :
    (f.holding (.replicate _ x)).tailBytes =
      netPacketToChar A f.checked [] ++ (List.replicate 16 x ++ (f.payload ++ [f.packet.tail])) := by
  have hA' : A.headLen = 50 := by rw [Build.headLen, hA]; rfl
  have hdrop : (List.replicate A.headLen x).drop 34 = List.replicate 16 x := by
    rw [List.drop_replicate, hA']
  show netPacketToChar A f.checked (List.replicate A.headLen x) ++ f.payload ++ [f.packet.tail] = _
  rw [netPacketToChar_append, hdrop]
  simp only [List.append_assoc]

/-- **No decision of a narrower receiver delivers the payload**, when the unwritten bytes are neither
its first byte nor what its checksum has at their place. -/
theorem decide_narrower (hA : A.sizeT = .b64) {x : Byte}
    (hfirst : x ≠ (f.payload ++ [f.packet.tail]).headD 0)
    (hcheck : x ≠ (checksum A f.payload).get 12) {k n : ℕ} {packet : Packet}
    (hd : (signedScan (A.withWord .b32 junk) f.packet.header f.packet.tail).decide
      ((f.holding (.replicate _ x)).wire.drop k) = some (n, some packet))
    (hlen : packet.packethead.datalen = f.packet.datalen) : packet.payload ≠ f.payload := by
  intro hpayload
  obtain ⟨ys, hys, hhead, hroom, hslice, hlast, hmd5⟩ := frame_of_decide hd
  have hR : (A.withWord .b32 junk).headLen = 34 := rfl
  have hdata := f.datalen_payload
  have hbytes := f.tailBytes_holding hA x
  have hchars := length_netPacketToChar_nil A f.checked
  generalize netPacketToChar A f.checked [] = chars at hbytes hchars
  have hdrop : ys = (chars ++ (List.replicate 16 x ++ (f.payload ++ [f.packet.tail]))).drop k := by
    have h := congrArg (List.drop 1) hys
    rw [List.drop_drop, Framing.wire_eq, Nat.add_comm k 1, ← List.drop_drop, hbytes] at h
    exact h.symm
  have hjunk : ∀ i, 34 ≤ k + i → k + i < 50 → ys.getD i 0 = x := by
    intro i h₀ h₁
    rw [hdrop, List.getD_eq_getElem?_getD, List.getElem?_drop, ← List.getD_eq_getElem?_getD,
      List.getD_append_right _ _ _ _ (by omega),
      List.getD_append _ _ _ _ (by rw [List.length_replicate]; omega)]
    exact List.getD_replicate _ (by omega)
  have hk : k ≤ 16 := by
    rw [hdrop] at hroom
    simp only [List.length_drop, List.length_append, List.length_replicate, List.length_singleton]
      at hroom
    omega
  rcases Nat.lt_or_ge k 16 with hlt | hge
  · -- the payload, or the tail, is an unwritten byte
    have hx := hjunk 34 (by omega) (by omega)
    refine hfirst ?_
    rw [hR, hlen, hdata] at hslice hlast
    rw [hpayload] at hslice
    cases hp : f.payload with
    | nil =>
      rw [hp, List.length_nil, Nat.add_zero, hx, beq_iff_eq] at hlast
      exact eq_of_charToInt hlast
    | cons b bs =>
      have hb : b = ys.getD 34 0 := by
        have h := congrArg (fun l => l.getD 0 0) hslice
        rw [hp] at h
        simpa [slice, List.getD_eq_getElem?_getD, List.getElem?_take, List.getElem?_drop] using h
      rw [← hx, ← hb]
      rfl
  · -- the checksum is read where the unwritten bytes are
    refine hcheck ?_
    rw [hhead, hpayload] at hmd5
    have hget : (charToNetPacket (A.withWord .b32 junk) ys).check.get 12 = ys.getD 18 0 :=
      List.Vector.get_ofFn _ _
    rw [← hjunk 18 (by omega) (by omega), ← hget, hmd5]
    rfl

theorem not_intact_narrower (hA : A.sizeT = .b64) : ¬ f.Intact .b32 junk := by
  intro h
  obtain ⟨x, hfirst, hcheck⟩ := exists_byte_ne ((f.payload ++ [f.packet.tail]).headD 0)
    ((checksum A f.payload).get 12)
  obtain ⟨cs, hcut⟩ := exists_chunks (A.withWord .b32 junk) (f.holding (.replicate _ x)).wire
  obtain ⟨q, out, hf, hout⟩ := h (.replicate _ x) zeroUninit cs hcut
  obtain ⟨d, rfl, hd⟩ := List.map_eq_singleton_iff.1 hout
  have hpackets := CPacketSync.map_packet_of_feed rfl zeroUninit hf
  obtain ⟨k, n, hdec⟩ := (Decoder.steps_run (streamOf cs)).of_mem (y := d.packet)
    (by rw [← hpackets]; exact List.mem_singleton_self _)
  rw [hcut] at hdec
  exact f.decide_narrower hA hfirst hcheck hdec (congrArg (fun c => c.2.1) hd)
    (congrArg (fun c => c.2.2) hd)

/-! ## Every pair of widths -/

/-- **The frames that every peer receives intact** are those received by a peer with the same width
of `size_t`, within the limits of all frames. -/
theorem intact_iff : f.Intact w junk ↔
    A.sizeT = w ∧ f.packet.tail.toNat < 128 ∧ f.payload.length ≤ 2 ^ 31 - 2 ∧
      f.packet.type < 2 ^ 32 := by
  constructor
  · intro h
    cases hA : A.sizeT <;> cases w
    · rw [← hA] at h
      exact ⟨rfl, f.bounds_of_intact h⟩
    · exact absurd h (f.not_intact_wider hA)
    · exact absurd h (f.not_intact_narrower hA)
    · rw [← hA] at h
      exact ⟨rfl, f.bounds_of_intact h⟩
  · rintro ⟨rfl, htail, hlen, htype⟩
    exact f.intact_of_bounds htail hlen htype

/-- A one-byte message of a 32-bit build. -/
def narrowMessage : Frame (zeroBuild.withWord .b32 fun _ => 0) where
  packet := ⟨0, serverPacketHead, serverPacketTail, .replicate 16 0, 7, 1, 0⟩
  data := some [0x2a]
  packchar := .replicate _ 0
  datalen_eq := rfl
  size := by decide

/-- A 64-bit receiver does not deliver it. -/
theorem narrowMessage_not_intact : ¬ narrowMessage.Intact .b64 fun _ => 0 :=
  narrowMessage.not_intact_wider rfl

end Frame

end SimpleUv
