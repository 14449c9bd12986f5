import SimpleUv.PacketSync.Search

/-!
# The body of a frame

What follows an accepted header: `fillBody_spec` reads data and tail from the input, `checkFrame_spec`
takes the decision of `signedScan` on the complete frame. The frame is either still in the
read buffer as a whole or in pieces in the two buffers; `Complete.stream_eq` joins both views.
-/

namespace SimpleUv

open Foundations

namespace CPacketSync

variable {B : Build} {head tail : Byte} {cap : ℕ} {p : CPacketSync}

theorem InFrame.headpos_eq (h : InFrame B head tail p) : p.headpos = p.offset :=
  (Int.toNat_of_nonneg h.headpos_nonneg).symm

theorem InFrame.length_headerBytes (h : InFrame B head tail p)
    (hb : Buffers head tail cap p) : (p.headerBytes B).length = 1 + B.headLen := by
  have h₁ := hb.true_le
  have h₂ := h.room
  unfold UvBuf.len at h₁
  exact length_slice (by omega)

/-- The header bytes start with the head byte. -/
theorem InFrame.headerBytes_eq (h : InFrame B head tail p) :
    ∃ hdr, p.headerBytes B = head :: hdr := by
  have hc := h.header
  cases hx : p.headerBytes B with
  | nil => simp [hx, candidate] at hc
  | cons b hdr =>
    rw [hx] at hc
    simp only [candidate, Option.ite_none_right_eq_some] at hc
    exact ⟨hdr, by rw [hc.1.1]⟩

/-! ## Reading data and tail -/

/-- What `fillBody` does to a frame that waits: all input is taken and the frame still waits, or
the frame is complete and some input is taken. -/
theorem fillBody_spec (h : Buffers head tail cap p) (hp : p.parsetype = .head)
    (hw : Waiting B head tail p) {data : List Byte} {iret : ℕ} (hi : iret ≤ data.length)
    (hd : 2 * data.length < B.sizeT.modulus) :
    (∃ p', p.fillBody B data iret = some (p', none) ∧ Buffers head tail cap p' ∧
      p'.parsetype = .head ∧ Waiting B head tail p' ∧
      p'.pending B = p.pending B ++ data.drop iret) ∨
    ∃ p' iret', p.fillBody B data iret = some (p', some iret') ∧ Buffers head tail cap p' ∧
      Complete B head tail p' ∧ iret < iret' ∧ iret' ≤ data.length ∧
      p'.stream B ++ data.drop iret' = p.pending B ++ data.drop iret := by
  have hM := two_pow_le_modulus B.sizeT
  have hdl := hw.datalen_le
  have hgot := hw.got_le
  have hpd := hw.packet_le
  have hav := hw.avail_le
  have hneed : B.toSize (p.theNexPacket.datalen + 1) = p.theNexPacket.datalen + 1 :=
    toSize_eq (by omega) (by omega)
  have hunread : B.toSize (data.length - iret) = data.length - iret :=
    toSize_eq (by omega) (by omega)
  have hsum : B.toSize (p.getdatalen + (data.length - iret : ℕ)) =
      p.getdatalen + (data.length - iret) := toSize_eq (by omega) (by omega)
  have hslice : ∀ n, iret + n ≤ data.length → (slice data iret n).length = n :=
    fun n hn => length_slice hn
  -- the packet buffer after the copy, read from its start
  have htake : ∀ n, iret + n ≤ data.length →
      (overwrite p.threadPacketdata.base p.getdatalen (slice data iret n)).take
        (p.getdatalen + n) = p.threadPacketdata.base.take p.getdatalen ++ slice data iret n := by
    intro n hn
    unfold UvBuf.len at hpd
    exact take_overwrite (by omega) (by rw [hslice n hn])
  have hpending : p.pending B =
      p.headerBytes B ++ p.threadPacketdata.base.take p.getdatalen := by
    simp only [pending, hp]
  simp only [fillBody, hneed, hunread, hsum]
  rw [if_pos (by omega)]
  split_ifs with hlt
  · left
    have hsl := hslice (data.length - iret) (by omega)
    rw [load_eq (by omega) le_rfl, Option.bind_eq_bind, Option.bind_some,
      UvBuf.store_eq (by rw [hsl]; omega), Option.bind_eq_bind, Option.bind_some]
    refine ⟨_, rfl, ⟨h.cb, h.head_eq, h.tail_eq, h.size_le, h.len_le, h.true_le⟩, hp, ?_, ?_⟩
    · refine ⟨⟨hw.headpos_nonneg, hw.room, hw.header, hdl, ?_⟩, ?_, ?_⟩
      · show p.theNexPacket.datalen + 1 ≤ UvBuf.len ⟨overwrite _ _ _⟩
        rw [UvBuf.len_overwrite (by rw [hsl]; omega)]
        exact hpd
      · exact hav.trans (Nat.le_add_right _ _)
      · exact Nat.lt_succ_iff.1 hlt
    · simp only [pending, hp]
      show p.headerBytes B ++ _ = _
      rw [htake _ (by omega), List.append_assoc]
      congr 2
      rw [slice, List.take_of_length_le (by rw [List.length_drop])]
  · right
    have hn : B.toSize (p.theNexPacket.datalen + 1 - p.getdatalen) =
        p.theNexPacket.datalen + 1 - p.getdatalen := toSize_eq (by omega) (by omega)
    set n := p.theNexPacket.datalen + 1 - p.getdatalen with hn'
    have hsl := hslice n (by omega)
    have hiret : B.toSize (iret + n) = iret + n := toSize_eq (by omega) (by omega)
    rw [hn, load_eq (by omega) le_rfl, Option.bind_eq_bind, Option.bind_some,
      UvBuf.store_eq (by rw [hsl]; omega), Option.bind_eq_bind, Option.bind_some, hiret]
    refine ⟨_, _, rfl, ⟨h.cb, h.head_eq, h.tail_eq, h.size_le, h.len_le, h.true_le⟩, ?_,
      by omega, by omega, ?_⟩
    · refine ⟨⟨hw.headpos_nonneg, hw.room, hw.header, hdl, ?_⟩, rfl, ?_⟩
      · show p.theNexPacket.datalen + 1 ≤ UvBuf.len ⟨overwrite _ _ _⟩
        rw [UvBuf.len_overwrite (by rw [hsl]; omega)]
        exact hpd
      · intro hc
        exact absurd (show p.theNexPacket.datalen + 1 ≤ p.avail B from hc) (by omega)
    · show (if p.theNexPacket.datalen + 1 ≤ p.avail B then _ else p.headerBytes B ++
        (overwrite p.threadPacketdata.base p.getdatalen (slice data iret n)).take
          (p.theNexPacket.datalen + 1)) ++ _ = _
      have hsum' : p.theNexPacket.datalen + 1 = p.getdatalen + n := by omega
      rw [if_neg (by omega), hsum', htake _ (by omega), hpending]
      simp only [List.append_assoc]
      congr 2
      rw [slice, ← List.drop_drop, List.take_append_drop]

/-- A complete frame needs no input. -/
theorem fillBody_complete (hc : Complete B head tail p) (data : List Byte) (iret : ℕ) :
    p.fillBody B data iret = some (p, some iret) := by
  have hM := two_pow_le_modulus B.sizeT
  have hdl := hc.datalen_le
  have hneed : B.toSize (p.theNexPacket.datalen + 1) = p.theNexPacket.datalen + 1 :=
    toSize_eq (by omega) (by omega)
  simp only [fillBody, hneed]
  rw [if_neg (by rw [hc.got_eq]; omega)]

/-! ## The decision on a complete frame -/

/-- The last byte of the frame and its payload, as the packet buffer has them. -/
theorem Complete.take_packetdata (hc : Complete B head tail p) :
    p.threadPacketdata.base.take (p.theNexPacket.datalen + 1) =
      p.threadPacketdata.base.take p.theNexPacket.datalen ++
        [p.threadPacketdata.base.getD p.theNexPacket.datalen 0] := by
  have h := hc.packet_le
  unfold UvBuf.len at h
  rw [List.take_succ_eq_append_getElem (by omega), List.getD_eq_getElem _ _ (by omega)]

/-- The bytes held begin with the frame; without the whole frame in the read buffer there are no
others. -/
theorem Complete.stream_eq (hc : Complete B head tail p) :
    p.stream B = p.headerBytes B ++
      p.threadPacketdata.base.take (p.theNexPacket.datalen + 1) ++
      (if p.theNexPacket.datalen + 1 ≤ p.avail B then
        slice p.threadReaddata.base (p.offset + B.headLen + p.theNexPacket.datalen + 2)
          (p.truepacketlen - (p.offset + B.headLen + p.theNexPacket.datalen + 2))
      else []) := by
  simp only [stream]
  split_ifs with hw
  · have hroom := hc.room
    have ha : p.truepacketlen - p.offset = (1 + B.headLen + (p.theNexPacket.datalen + 1)) +
        (p.truepacketlen - (p.offset + B.headLen + p.theNexPacket.datalen + 2)) := by
      unfold avail at hw
      omega
    rw [hc.whole hw, headerBytes, Nat.add_assoc p.offset 1, slice_append_slice, ha,
      ← slice_append_slice]
    congr 2
    omega
  · rw [hc.got_eq, List.append_nil]

/-- The decision of `signedScan` on a complete frame. -/
theorem Complete.decide_stream (hc : Complete B head tail p) (hb : Buffers head tail cap p)
    (rest : List Byte) :
    (signedScan B head tail).decide (p.stream B ++ rest) =
      if charToInt (p.threadPacketdata.base.getD p.theNexPacket.datalen 0) ≠ tail.toNat ∨
          p.theNexPacket.check ≠
            checksum B (p.threadPacketdata.base.take p.theNexPacket.datalen) then some (1, none)
      else some (1 + B.headLen + (p.theNexPacket.datalen + 1),
        some ⟨p.theNexPacket, p.threadPacketdata.base.take p.theNexPacket.datalen⟩) := by
  obtain ⟨hdr, hhdr⟩ := hc.headerBytes_eq
  have hlen := hc.length_headerBytes hb
  have hpl : (p.threadPacketdata.base.take p.theNexPacket.datalen).length =
      p.theNexPacket.datalen := by
    have h := hc.packet_le
    unfold UvBuf.len at h
    rw [List.length_take]
    omega
  rw [hc.stream_eq, hc.take_packetdata]
  set payload := p.threadPacketdata.base.take p.theNexPacket.datalen
  set last := p.threadPacketdata.base.getD p.theNexPacket.datalen 0
  generalize (if p.theNexPacket.datalen + 1 ≤ p.avail B then _ else ([] : List Byte)) = more
  have hcand := candidate_append hc.header (payload ++ [last] ++ more ++ rest)
  have hlen' : hdr.length = B.headLen := by
    rw [hhdr, List.length_cons] at hlen
    omega
  rw [hhdr, List.cons_append] at hcand
  have heq : p.headerBytes B ++ (payload ++ [last]) ++ more ++ rest =
      head :: (hdr ++ (payload ++ [last] ++ more ++ rest)) := by
    rw [hhdr]
    simp only [List.cons_append, List.append_assoc]
  have hslice : slice (hdr ++ (payload ++ [last] ++ more ++ rest)) B.headLen
      p.theNexPacket.datalen = payload := by
    rw [slice_append_right (by omega), hlen', Nat.sub_self, slice_zero]
    simp only [List.append_assoc]
    exact List.take_left' hpl
  have hlast : (hdr ++ (payload ++ [last] ++ more ++ rest)).getD
      (B.headLen + p.theNexPacket.datalen) 0 = last := by
    rw [List.getD_append_right _ _ _ _ (by omega)]
    simp only [List.append_assoc]
    rw [List.getD_append_right _ _ _ _ (by omega)]
    simp [hlen', hpl]
  rw [heq, decide_complete hcand ?_, hslice, hlast]
  · simp only [beq_iff_eq, ne_eq]
  simp only [List.length_append, hlen', hpl, List.length_singleton]
  omega

/-! ## Rejecting and accepting -/

/-- The index behind the head byte. -/
theorem InFrame.toInt_headpos (h : InFrame B head tail p) (hb : Buffers head tail cap p)
    (hcap : cap ≤ maxCap B) : toInt (p.headpos + 1) = (p.offset + 1 : ℕ) := by
  rw [h.headpos_eq]
  exact (toInt_of_room h.room (hb.true_le.trans (hb.len_le.trans hcap))).2

theorem InFrame.frameInReaddata_iff (h : InFrame B head tail p) (hb : Buffers head tail cap p)
    (hcap : cap ≤ maxCap B) :
    p.frameInReaddata B ↔ p.theNexPacket.datalen + 1 ≤ p.avail B := by
  have hM := maxCap_lt B
  have hM' := two_pow_le_modulus B.sizeT
  have htrue := hb.true_le.trans (hb.len_le.trans hcap)
  have hroom := h.room
  have hdl := h.datalen_le
  have hav : p.avail B = p.truepacketlen - p.offset - 1 - B.headLen := rfl
  unfold frameInReaddata
  rw [h.headpos_eq, toSize_eq (n := p.theNexPacket.datalen + 1) (by omega) (by omega),
    toSize_eq (n := p.avail B) (by omega) (by omega)]

/-- The frame loses its head byte; what is held besides goes to the read buffer. -/
theorem rejectFrame_spec (hb : Buffers head tail cap p) (hcap : cap ≤ maxCap B)
    (hc : Complete B head tail p) (hcap' : B.headLen + p.theNexPacket.datalen + 1 ≤ cap) :
    ∃ p', p.rejectFrame B = some p' ∧ Buffers head tail cap p' ∧ p'.parsetype = .nothing ∧
      p'.pending B = (p.stream B).drop 1 := by
  have hM := maxCap_lt B
  have htrue := hb.true_le
  have hlen := hb.len_le
  have hroom := hc.room
  have hpd := hc.packet_le
  have hoff : B.toSize (p.headpos + 1) = p.offset + 1 := by
    rw [hc.headpos_eq]
    exact toSize_eq (by norm_num) (by omega)
  simp only [rejectFrame, hc.toInt_headpos hb hcap, hoff, hc.frameInReaddata_iff hb hcap]
  by_cases hw : p.theNexPacket.datalen + 1 ≤ p.avail B
  · rw [if_pos hw]
    have hleft : B.toSize (p.truepacketlen - p.headpos - 1) = p.truepacketlen - (p.offset + 1) := by
      rw [hc.headpos_eq]
      exact toSize_eq (by omega) (by omega)
    obtain ⟨rd, hmove, hrd, htake⟩ := moveFront_spec (p.offset + 1)
      (p.truepacketlen - (p.offset + 1)) (by omega) htrue
    rw [hleft, hmove, toSize_eq (n := p.truepacketlen - (p.offset + 1)) (by omega) (by omega)]
    refine ⟨_, rfl, ⟨hb.cb, hb.head_eq, hb.tail_eq, hrd ▸ hb.size_le, hrd ▸ hlen, ?_⟩, rfl, ?_⟩
    · show p.truepacketlen - (p.offset + 1) ≤ rd.len
      omega
    · simp only [pending, htake, stream, if_pos hw]
      rw [drop_slice, Nat.sub_sub]
  · rw [if_neg hw]
    have hsize : B.toSize (B.headLen + p.theNexPacket.datalen + 1) =
        B.headLen + p.theNexPacket.datalen + 1 := toSize_eq (by omega) (by omega)
    have hneed : B.toSize (p.theNexPacket.datalen + 1) = p.theNexPacket.datalen + 1 :=
      toSize_eq (by omega) (by omega)
    have hfull : B.toSize (B.headLen + (p.theNexPacket.datalen + 1 : ℕ)) =
        B.headLen + (p.theNexPacket.datalen + 1) := toSize_eq (by omega) (by omega)
    rw [hsize, hneed, hfull]
    obtain ⟨rd, hrd⟩ : ∃ rd, rd = if p.threadReaddata.len < B.headLen + p.theNexPacket.datalen + 1
        then p.threadReaddata.realloc B (B.headLen + p.theNexPacket.datalen + 1)
        else p.threadReaddata := ⟨_, rfl⟩
    -- growing the read buffer keeps its valid bytes
    have hgrow : p.threadReaddata.len ≤ rd.len ∧ B.headLen + p.theNexPacket.datalen + 1 ≤ rd.len ∧
        rd.len ≤ cap ∧ slice rd.base (p.offset + 1) B.headLen =
          slice p.threadReaddata.base (p.offset + 1) B.headLen := by
      rw [hrd]
      split_ifs with hlt
      · rw [UvBuf.len_realloc B hlt.le, UvBuf.slice_realloc B hlt.le (by omega)]
        exact ⟨hlt.le, le_rfl, hcap', rfl⟩
      · exact ⟨le_rfl, by omega, hlen, rfl⟩
    obtain ⟨hg₁, hg₂, hg₃, hg₄⟩ := hgrow
    obtain ⟨rd', hmove, hrd', htake⟩ := moveFront_spec (p := { p with threadReaddata := rd })
      (p.offset + 1) B.headLen (by simp only; omega) (htrue.trans hg₁)
    simp only at hrd' htake
    have hsl : (slice p.threadPacketdata.base 0 (p.theNexPacket.datalen + 1)).length =
        p.theNexPacket.datalen + 1 := by
      unfold UvBuf.len at hpd
      exact length_slice (by omega)
    rw [← hrd, hmove, load_eq (by rw [hc.got_eq]; omega) (by rw [hc.got_eq]; exact hpd)]
    simp only [Option.bind_eq_bind, Option.bind_some]
    rw [UvBuf.store_eq (by rw [hsl]; omega), Option.bind_some]
    have hnew : (UvBuf.mk (overwrite rd'.base B.headLen
        (slice p.threadPacketdata.base 0 (p.theNexPacket.datalen + 1)))).len = rd.len := by
      rw [UvBuf.len_overwrite (by rw [hsl]; omega), hrd']
    refine ⟨_, rfl, ⟨hb.cb, hb.head_eq, hb.tail_eq, ?_, ?_, ?_⟩, rfl, ?_⟩
    · rw [hnew]
      exact hb.size_le.trans hg₁
    · rw [hnew]
      exact hg₃
    · show B.headLen + (p.theNexPacket.datalen + 1) ≤ UvBuf.len _
      rw [hnew]
      omega
    · obtain ⟨hdr, hhdr⟩ := hc.headerBytes_eq
      have hdrop : slice p.threadReaddata.base (p.offset + 1) B.headLen =
          (p.headerBytes B).drop 1 := by
        rw [headerBytes, drop_slice, Nat.add_sub_cancel_left]
      have hov : (overwrite rd'.base B.headLen
          (slice p.threadPacketdata.base 0 (p.theNexPacket.datalen + 1))).take
            (B.headLen + (p.theNexPacket.datalen + 1)) =
          rd'.base.take B.headLen ++
            slice p.threadPacketdata.base 0 (p.theNexPacket.datalen + 1) :=
        take_overwrite (by unfold UvBuf.len at hrd' hg₂; omega) (by rw [hsl])
      simp only [pending]
      rw [hov, htake, hg₄, hdrop, slice_zero, hc.stream_eq, if_neg hw, List.append_nil, hhdr]
      rfl

/-- The frame is delivered and what is held behind it stays. -/
theorem acceptFrame_spec (hb : Buffers head tail cap p) (hcap : cap ≤ maxCap B)
    (hc : Complete B head tail p) :
    ∃ p' d, p.acceptFrame B = some (p', some d) ∧ Buffers head tail cap p' ∧
      p'.parsetype = .nothing ∧
      d.packet = ⟨p.theNexPacket, p.threadPacketdata.base.take p.theNexPacket.datalen⟩ ∧
      p'.pending B = (p.stream B).drop (1 + B.headLen + (p.theNexPacket.datalen + 1)) := by
  have hM := maxCap_lt B
  have htrue := hb.true_le
  have hlen := hb.len_le
  have hroom := hc.room
  have hpd := hc.packet_le
  have hpl : (p.threadPacketdata.base.take (p.theNexPacket.datalen + 1)).length =
      p.theNexPacket.datalen + 1 := by
    unfold UvBuf.len at hpd
    rw [List.length_take]
    omega
  have hdrop : (p.stream B).drop (1 + B.headLen + (p.theNexPacket.datalen + 1)) =
      if p.theNexPacket.datalen + 1 ≤ p.avail B then
        slice p.threadReaddata.base (p.offset + B.headLen + p.theNexPacket.datalen + 2)
          (p.truepacketlen - (p.offset + B.headLen + p.theNexPacket.datalen + 2))
      else [] := by
    rw [hc.stream_eq]
    refine List.drop_left' ?_
    rw [List.length_append, hc.length_headerBytes hb, hpl]
  have hpayload : (overwrite p.threadPacketdata.base p.theNexPacket.datalen [0]).take
      p.theNexPacket.datalen = p.threadPacketdata.base.take p.theNexPacket.datalen := by
    unfold UvBuf.len at hpd
    exact take_overwrite_le (by omega) le_rfl
  rw [hdrop]
  simp only [acceptFrame, hc.frameInReaddata_iff hb hcap, hb.cb, if_true]
  rw [UvBuf.store_eq (by simpa using hpd)]
  by_cases hw : p.theNexPacket.datalen + 1 ≤ p.avail B
  · have hav : p.avail B = p.truepacketlen - p.offset - 1 - B.headLen := rfl
    have hsize : B.toSize (p.headpos + B.headLen + p.theNexPacket.datalen + 2) =
        p.offset + B.headLen + p.theNexPacket.datalen + 2 := by
      rw [hc.headpos_eq]
      exact toSize_eq (by push_cast; omega) (by omega)
    set size := p.offset + B.headLen + p.theNexPacket.datalen + 2 with hs
    obtain ⟨rd, hmove, hrd, htake⟩ := moveFront_spec size
      (p.truepacketlen - size) (by omega) htrue
    rw [if_pos hw, if_pos hw, if_pos hw, hsize,
      toSize_eq (n := p.truepacketlen - size) (by omega) (by omega), hmove]
    refine ⟨_, _, rfl, ⟨rfl, hb.head_eq, hb.tail_eq, hrd ▸ hb.size_le, hrd ▸ hlen, ?_⟩, rfl,
      ?_, htake⟩
    · show p.truepacketlen - size ≤ rd.len
      omega
    · simp only [Delivery.packet, hpayload]
  · rw [if_neg hw, if_neg hw, if_neg hw]
    refine ⟨_, _, rfl, ⟨rfl, hb.head_eq, hb.tail_eq, hb.size_le, hlen, Nat.zero_le _⟩, rfl,
      ?_, rfl⟩
    simp only [Delivery.packet, hpayload]

theorem Complete.setMd5 (hc : Complete B head tail p) (m : Digest) :
    Complete B head tail { p with md5str := m } :=
  ⟨⟨hc.headpos_nonneg, hc.room, hc.header, hc.datalen_le, hc.packet_le⟩, hc.got_eq, hc.whole⟩

/-- **The checks of a complete frame** take the decision of `signedScan`. Only a rejected
frame needs room in the read buffer. -/
theorem checkFrame_spec (hb : Buffers head tail cap p) (hcap : cap ≤ maxCap B)
    (hc : Complete B head tail p) (rest : List Byte)
    (hrej : (signedScan B head tail).decide (p.stream B ++ rest) = some (1, none) →
      B.headLen + p.theNexPacket.datalen + 1 ≤ cap) :
    ∃ p' o n, p.checkFrame B = some (p', o) ∧ Buffers head tail cap p' ∧
      p'.parsetype = .nothing ∧
      (signedScan B head tail).decide (p.stream B ++ rest) = some (n, o.map Delivery.packet) ∧
      n ≤ (p.stream B).length ∧ p'.pending B = (p.stream B).drop n := by
  have hpd := hc.packet_le
  have hdec := hc.decide_stream hb rest
  have hlen : 1 + B.headLen + (p.theNexPacket.datalen + 1) ≤ (p.stream B).length := by
    rw [hc.stream_eq, List.length_append, List.length_append, hc.length_headerBytes hb,
      List.length_take]
    unfold UvBuf.len at hpd
    omega
  have hlast : slice p.threadPacketdata.base p.theNexPacket.datalen 1 =
      [p.threadPacketdata.base.getD p.theNexPacket.datalen 0] := by
    unfold UvBuf.len at hpd
    rw [slice, List.drop_eq_getElem_cons (by omega), List.getD_eq_getElem _ _ (by omega)]
    rfl
  have hmd5 : (if p.theNexPacket.datalen = 0 then .replicate 16 0
      else B.md5 (p.threadPacketdata.base.take p.theNexPacket.datalen)) =
      checksum B (p.threadPacketdata.base.take p.theNexPacket.datalen) := by
    unfold UvBuf.len at hpd
    unfold checksum
    refine if_congr ?_ rfl rfl
    rw [← List.length_eq_zero_iff, List.length_take]
    omega
  simp only [checkFrame]
  rw [load_eq (by rw [hc.got_eq]) (by rw [hc.got_eq]; exact hpd),
    load_eq (by rw [hc.got_eq]; omega) (by rw [hc.got_eq]; exact hpd), hlast]
  simp only [Option.bind_eq_bind, Option.bind_some, slice_zero, hmd5]
  by_cases ht : charToInt (p.threadPacketdata.base.getD p.theNexPacket.datalen 0) = tail.toNat
  · have htail' : ¬ [charToInt (p.threadPacketdata.base.getD p.theNexPacket.datalen 0)] ≠
        [(p.tail.toNat : ℤ)] := by
      rw [ht, hb.tail_eq]
      simp
    rw [List.map_singleton, if_neg htail']
    by_cases hm : p.theNexPacket.check =
        checksum B (p.threadPacketdata.base.take p.theNexPacket.datalen)
    · rw [if_neg (by simp [hm])]
      rw [if_neg (by simp only [ht, hm, ne_eq, not_true_eq_false, or_self, not_false_eq_true])] at hdec
      obtain ⟨p', d, hacc, hb', hp', hd, hpend⟩ := acceptFrame_spec (p := { p with
        md5str := checksum B (p.threadPacketdata.base.take p.theNexPacket.datalen) })
        ⟨hb.cb, hb.head_eq, hb.tail_eq, hb.size_le, hb.len_le, hb.true_le⟩ hcap (hc.setMd5 _)
      refine ⟨p', some d, _, hacc, hb', hp', ?_, hlen, hpend⟩
      rw [hdec, Option.map_some, hd]
    · rw [if_pos (by simpa using hm)]
      rw [if_pos (.inr hm)] at hdec
      obtain ⟨p', hrejp, hb', hp', hpend⟩ := rejectFrame_spec (p := { p with
        md5str := checksum B (p.threadPacketdata.base.take p.theNexPacket.datalen) })
        ⟨hb.cb, hb.head_eq, hb.tail_eq, hb.size_le, hb.len_le, hb.true_le⟩ hcap (hc.setMd5 _)
        (hrej hdec)
      refine ⟨p', none, 1, ?_, hb', hp', hdec, by omega, hpend⟩
      rw [hrejp, Option.bind_some]
  · have htail' : [charToInt (p.threadPacketdata.base.getD p.theNexPacket.datalen 0)] ≠
        [(p.tail.toNat : ℤ)] := by
      rw [hb.tail_eq]
      simpa using ht
    rw [List.map_singleton, if_pos htail']
    rw [if_pos (.inl ht)] at hdec
    obtain ⟨p', hrejp, hb', hp', hpend⟩ := rejectFrame_spec hb hcap hc (hrej hdec)
    refine ⟨p', none, 1, ?_, hb', hp', hdec, by omega, hpend⟩
    rw [hrejp, Option.bind_some]

end CPacketSync

end SimpleUv
