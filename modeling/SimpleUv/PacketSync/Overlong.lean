import SimpleUv.PacketSync.Narrowing

/-!
# Announced lengths beyond the range of `int`

A header may announce `2 ^ 31 - 1` bytes or more, and `getdatalen` is then the image of a negative
`int`. Where `size_t` has 4 bytes this is always a fault, at the copy into the packet buffer or at the
check of a frame that counts as complete with nothing in it (`turn_overlong`). So calls that return took
the decisions of the reference parser, whatever the input is (`map_packet_of_feed`). Where `size_t` has 8
bytes it is a fault, or, for the length `2 ^ 32 - 1`, the call drops what it has read and waits: a
frame of such a length is not delivered (`feed_overlong`).
-/

namespace SimpleUv

open Foundations

namespace CPacketSync

variable {B : Build} {head tail : Byte} {cap : ℕ} {p q : CPacketSync} {data : List Byte}
  {iret i : ℕ}

/-- A 32-bit length that is too large is a fault where `size_t` has 4 bytes. -/
theorem startFrame_overlong (hB : B.sizeT = .b32) (hlen : p.threadReaddata.len ≤ maxCap B)
    (hroom : p.offset + 1 + B.headLen ≤ p.truepacketlen)
    (htrue : p.truepacketlen ≤ p.threadReaddata.len) (h₀ : 0 ≤ p.headpos)
    (hd₀ : 2 ^ 31 ≤ p.theNexPacket.datalen + 1) (hd₁ : p.theNexPacket.datalen < 2 ^ 32) :
    (p.startFrame B).bind (fun q => q.turnBody B data i) = none := by
  rcases Nat.lt_or_ge (p.theNexPacket.datalen + 1) (2 ^ 32) with hlt | hge
  · rw [startFrame_fault hlen hroom htrue h₀ hd₀ hlt, Option.bind_none]
  · -- nothing is missing, so the tail is read where nothing was copied
    have hM : B.sizeT.modulus = 2 ^ 32 := by rw [hB]; rfl
    have hle : p.truepacketlen ≤ 2 ^ 31 - 1 + B.headLen := htrue.trans hlen
    have hH := headLen_le B
    have hoff : p.headpos = p.offset := (Int.toNat_of_nonneg h₀).symm
    obtain ⟨av, hav'⟩ : ∃ av, av = p.truepacketlen - p.offset - 1 - B.headLen := ⟨_, rfl⟩
    have hav : B.toSize (p.truepacketlen - p.headpos - 1 - B.headLen) = av :=
      toSize_eq (by omega) (by rw [hM]; omega)
    have hneed : B.toSize (p.theNexPacket.datalen + 1) = 0 := by
      rw [← toSize_add_mul _ (-1), hM]
      exact toSize_eq (by push_cast; omega) (by rw [hM]; norm_num)
    have hgot : B.toSize (min (av : ℤ) (0 : ℤ)) = 0 := by
      rw [min_eq_right (by omega)]
      exact toSize_eq rfl (by rw [hM]; norm_num)
    have hzero : toInt ((0 : ℕ) : ℤ) = 0 := toInt_eq (by norm_num) (by norm_num)
    simp only [startFrame, hneed, hav]
    rw [hzero, toInt_eq (x := av) (by omega) (by omega), hgot, if_neg (Nat.lt_irrefl 0),
      Option.bind_some]
    simp only [turnBody, fillBody, hneed]
    rw [if_neg (Nat.lt_irrefl 0), Option.bind_eq_bind, Option.bind_some]
    simp only [checkFrame]
    rw [load_eq_none (by omega)]
    rfl

/-- **An accepted header that announces too much is a fault** where `size_t` has 4 bytes. -/
theorem turn_overlong (hB : B.sizeT = .b32) (h : Inv B head tail cap p) (hcap : cap ≤ maxCap B)
    (hi : iret ≤ data.length) (hd : 2 * data.length < B.sizeT.modulus)
    (hlen : ¬ p.DatalenSurvives B data iret) : p.turn B data iret = none := by
  simp only [DatalenSurvives, LengthFits, LengthAtMost, Classical.not_imp, not_forall, not_le] at hlen
  obtain ⟨hp, i, hf, c, hc, hbig⟩ := hlen
  rw [h.toBuffers.head_eq] at hf
  rw [h.toBuffers.head_eq, h.toBuffers.tail_eq] at hc
  obtain ⟨p₁, n, hl, hroom, htrue, h₀, hpacket, -, hturn⟩ :=
    turn_of_candidate h hcap hi hd hp hf hc
  rw [hturn]
  refine startFrame_overlong hB hl hroom htrue h₀ ?_ ?_
  · rw [hpacket]
    omega
  · rw [hpacket]
    obtain ⟨-, hcons, -⟩ := findIdx_head hf
    rw [hcons] at hc
    obtain ⟨-, rfl, -⟩ := candidate_cons hc
    exact BitVec.isLt _

/-- **Where `size_t` has 4 bytes, calls that return took the decisions of the reference parser.** -/
theorem map_packet_of_feed (hB : B.sizeT = .b32) (u : Uninit) {cs : List (Chunk B)}
    {out : List Delivery} (hf : (fresh u head tail).feed B cs = .done q out) :
    out.map Delivery.packet = ((signedScan B head tail).run (streamOf cs)).1 := by
  have hinv := inv_fresh B u head tail (bufferSize_le_maxCap B)
  have survives : ∀ {d : Chunk B} {r : CPacketSync} {j : ℕ}, Inv B head tail (maxCap B) r →
      j ≤ d.bytes.length → r.turn B d.bytes j ≠ none →
      r.HeadposSurvives B d.bytes j ∧ r.DatalenSurvives B d.bytes j := by
    intro d r j hr hj ht
    constructor
    · by_contra hfit
      exact ht (turn_fault hr le_rfl hj d.size hfit)
    · by_contra hlen
      exact ht (turn_overlong hB hr le_rfl hj d.size hlen)
  obtain ⟨q', out', hf', -, hs, hrun⟩ := feed_spec le_rfl cs hinv (.inl rfl) rfl
    fun d r j hv hg => by
      obtain ⟨hr, hj, -⟩ := hv.inv hinv le_rfl (.inl rfl)
        fun d r j _ _ _ hr hj _ _ ht => survives hr hj ht
      exact survives hr hj (hv.turn_ne_none hf hg)
  rw [hf] at hf'
  cases hf'
  simpa using map_packet_eq_run hs hrun

/-! ## Where `size_t` has 8 bytes -/

/-- The iteration is a fault, or returns. -/
def Ends (r : Option Turn) : Prop := ∀ t, r = some t → ∃ q, t = .ret q

/-- Where the input ends before the frame does, the call returns. -/
theorem turnBody_ends
    (hneed : B.toSize (p.getdatalen + B.toSize (data.length - i)) <
      B.toSize (p.theNexPacket.datalen + 1))
    (hgot : p.getdatalen < B.toSize (p.theNexPacket.datalen + 1)) : Ends (p.turnBody B data i) := by
  intro t ht
  obtain ⟨⟨r, next⟩, hfill, ht⟩ := Option.bind_eq_some_iff.1 ht
  simp only [fillBody] at hfill
  rw [if_pos hgot, if_pos hneed] at hfill
  obtain ⟨src, -, hfill⟩ := Option.bind_eq_some_iff.1 hfill
  obtain ⟨pd, -, hfill⟩ := Option.bind_eq_some_iff.1 hfill
  simp only [Option.some.injEq, Prod.mk.injEq] at hfill
  obtain ⟨rfl, rfl⟩ := hfill
  simp only [Option.some.injEq] at ht
  exact ⟨_, ht.symm⟩

/-- The longest length of 32 bits: nothing is copied, and all of the frame is missing. -/
theorem startFrame_longest (hB : B.sizeT = .b64) (hlen : p.threadReaddata.len ≤ maxCap B)
    (hroom : p.offset + 1 + B.headLen ≤ p.truepacketlen)
    (htrue : p.truepacketlen ≤ p.threadReaddata.len) (h₀ : 0 ≤ p.headpos)
    (hd : p.theNexPacket.datalen + 1 = 2 ^ 32) (hi : i ≤ data.length)
    (hshort : data.length < i + 2 ^ 32) :
    Ends ((p.startFrame B).bind fun q => q.turnBody B data i) := by
  have hM : B.sizeT.modulus = 2 ^ 64 := by rw [hB]; rfl
  have hle : p.truepacketlen ≤ 2 ^ 31 - 1 + B.headLen := htrue.trans hlen
  have hH := headLen_le B
  have hoff : p.headpos = p.offset := (Int.toNat_of_nonneg h₀).symm
  obtain ⟨av, hav'⟩ : ∃ av, av = p.truepacketlen - p.offset - 1 - B.headLen := ⟨_, rfl⟩
  have hav : B.toSize (p.truepacketlen - p.headpos - 1 - B.headLen) = av :=
    toSize_eq (by omega) (by rw [hM]; omega)
  have hneed : B.toSize (p.theNexPacket.datalen + 1) = 2 ^ 32 :=
    toSize_eq (by exact_mod_cast hd) (by rw [hM]; norm_num)
  have hzero : toInt ((2 ^ 32 : ℕ) : ℤ) = 0 := by decide
  have hgot : B.toSize (min (av : ℤ) (0 : ℤ)) = 0 := by
    rw [min_eq_right (by omega)]
    exact toSize_eq rfl (by rw [hM]; norm_num)
  have hunread : B.toSize (data.length - i) = data.length - i :=
    toSize_eq (by omega) (by rw [hM]; omega)
  simp only [startFrame, hneed, hav]
  rw [hzero, toInt_eq (x := av) (by omega) (by omega), hgot, if_neg (Nat.lt_irrefl 0),
    Option.bind_some]
  refine turnBody_ends ?_ ?_
  · rw [hneed, hunread]
    show B.toSize (((0 : ℕ) : ℤ) + ((data.length - i : ℕ) : ℤ)) < 2 ^ 32
    rw [toSize_eq (n := data.length - i) (by omega) (by rw [hM]; omega)]
    omega
  · rw [hneed]
    show 0 < 2 ^ 32
    norm_num

theorem startFrame_ends (hlen : p.threadReaddata.len ≤ maxCap B)
    (hroom : p.offset + 1 + B.headLen ≤ p.truepacketlen)
    (htrue : p.truepacketlen ≤ p.threadReaddata.len) (h₀ : 0 ≤ p.headpos)
    (hd₀ : 2 ^ 31 ≤ p.theNexPacket.datalen + 1) (hd₁ : p.theNexPacket.datalen < 2 ^ 32)
    (hi : i ≤ data.length) (hshort : data.length < i + 2 ^ 32) :
    Ends ((p.startFrame B).bind fun q => q.turnBody B data i) := by
  cases hB : B.sizeT with
  | b32 =>
    rw [startFrame_overlong hB hlen hroom htrue h₀ hd₀ hd₁]
    exact nofun
  | b64 =>
    rcases Nat.lt_or_ge (p.theNexPacket.datalen + 1) (2 ^ 32) with hlt | hge
    · rw [startFrame_fault hlen hroom htrue h₀ hd₀ hlt]
      exact nofun
    · exact startFrame_longest hB hlen hroom htrue h₀ (by omega) hi hshort

/-- **A frame of an overlong payload is not delivered** by a call on a fresh parser. -/
theorem feed_overlong (u : Uninit) (c : Chunk B) {h : NetPacket}
    (hc : candidate B head tail c.bytes = some h) (hbig : 2 ^ 31 ≤ h.datalen + 1)
    (hshort : c.bytes.length < bufferSize + 2 ^ 32) {out : List Delivery}
    (hf : (fresh u head tail).feed B [c] = .done q out) : out = [] := by
  have hinv := inv_fresh B u head tail (bufferSize_le_maxCap B)
  have hlen : (fresh u head tail).threadReaddata.len = bufferSize := u.readdata.toList_length
  obtain ⟨xs, hxs⟩ := candidate_head hc
  have hbytes : c.bytes.length = xs.length + 1 := by rw [hxs, List.length_cons]
  rw [hxs] at hc
  obtain ⟨hxl, rfl, hh, ht⟩ := candidate_cons hc
  have hH := headLen_ge B
  have hH' := headLen_le B
  have hsize := bufferSize_eq
  have hwin : (fresh u head tail).window c.bytes 0 = head :: xs.take (bufferSize - 1) := by
    rw [window_fresh, hxs, List.take_cons (by omega)]
  have hpacket : charToNetPacket B (xs.take (bufferSize - 1)) = charToNetPacket B xs :=
    charToNetPacket_take B (by omega) (by omega)
  have hc' : candidate B head tail (((fresh u head tail).window c.bytes 0).drop 0) =
      some (charToNetPacket B xs) := by
    rw [List.drop_zero, hwin, ← hpacket]
    refine candidate_of_header ?_ (by rw [hpacket, hh]) (by rw [hpacket, ht])
    rw [List.length_take]
    omega
  obtain ⟨p₁, n, hl, hroom, htrue, h₀, hpk, hn, hturn⟩ :=
    turn_of_candidate hinv le_rfl (Nat.zero_le _) c.size rfl
      (by rw [hwin]; simp [List.findIdx?_cons]) hc'
  have hn' : n = min c.bytes.length bufferSize := by
    rw [hn, hlen]
    rfl
  have hends : Ends ((fresh u head tail).turn B c.bytes 0) := by
    rw [hturn, Nat.zero_add]
    exact startFrame_ends hl hroom htrue h₀ (by rw [hpk]; exact hbig)
      (by rw [hpk]; exact BitVec.isLt _) (by omega) (by omega)
  have hgoes : (fresh u head tail).Goes B c.bytes 0 := .inl (by omega)
  obtain ⟨q', out₁, out₂, hcall, hrest, rfl⟩ := feed_cons_done hf
  cases hrest
  rw [recvdata, recvLoop, if_pos hgoes] at hcall
  cases ht : (fresh u head tail).turn B c.bytes 0 with
  | none =>
    rw [ht] at hcall
    cases hcall
  | some t =>
    obtain ⟨r, rfl⟩ := hends t ht
    rw [ht] at hcall
    cases hcall
    rfl

end CPacketSync

end SimpleUv
