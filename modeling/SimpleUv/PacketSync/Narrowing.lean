import SimpleUv.PacketSync.Refinement

/-!
# What the conversions to `int` break

Two quantities of type `size_t` pass through an `int`: the index of the head byte and the number of
bytes of data and tail. While both survive, the parser refines the reference parser
(`refines_iff_headposSurvives`) and every access of its loop stays inside its buffer
(`loopBounds_of_survives`). A rejected frame of almost `2 ^ 31` bytes makes the read buffer so long
that the first does not survive on a 64-bit build; an announced length of `2 ^ 31 - 1` is enough
for the second.
-/

namespace SimpleUv

open Foundations

namespace CPacketSync

variable {B : Build} {head tail : Byte} {cap : ℕ}

/-- **The parser refines the reference parser exactly when every search finds its head byte at an
index that survives its conversion to `int`.** -/
theorem refines_iff_headposSurvives (B : Build) (u : Uninit) (cs : List (Chunk B))
    (hlen : (reference B serverPacketHead serverPacketTail).Everywhere
      (LengthAtMost B serverPacketHead serverPacketTail (2 ^ 31 - 2)) (streamOf cs)) :
    Refines B serverPacketHead serverPacketTail (fresh u serverPacketHead serverPacketTail) cs ↔
      ∀ d q i, Visit B (fresh u serverPacketHead serverPacketTail) cs d q i →
        q.Goes B d.bytes i → q.HeadposSurvives B d.bytes i := by
  have hinv := inv_fresh B u serverPacketHead serverPacketTail (bufferSize_le_maxCap B)
  rw [← signedScan_eq (by decide)] at hlen
  constructor
  · intro h d q i hv hg
    obtain ⟨r, out, hf, -⟩ := h cs (List.prefix_refl _)
    exact headposSurvives_of_feed le_rfl hinv (.inl rfl) hlen hf hv hg
  · rintro h pre ⟨suf, rfl⟩
    rw [streamOf_append] at hlen
    obtain ⟨q, out, hf, -, hs, hrun⟩ := feed_of_headposSurvives le_rfl pre hinv (.inl rfl)
      rfl
      (hlen.of_append fun _ _ => LengthAtMost.of_append)
      fun d r j hv _ hg => h d r j (hv.append suf) hg
    refine ⟨q, out, hf, ?_⟩
    rw [map_packet_eq_run hs hrun, signedScan_eq (by decide), pending_fresh, List.nil_append]

/-- What holds of the buffers at a loop head. -/
structure LoopBounds (B : Build) (p : CPacketSync) : Prop where
  read : p.truepacketlen ≤ p.threadReaddata.len
  header : p.parsetype = .head → p.headpos + 1 + B.headLen ≤ p.truepacketlen
  got : p.parsetype = .head → p.getdatalen ≤ p.theNexPacket.datalen + 1
  packet : p.parsetype = .head → p.theNexPacket.datalen + 1 ≤ p.threadPacketdata.len

theorem Inv.loopBounds {p : CPacketSync} (h : Inv B head tail cap p) : LoopBounds B p where
  read := h.true_le
  header hp := by
    have hw := h.waiting hp
    have := hw.room
    rw [hw.headpos_eq]
    omega
  got hp := (h.waiting hp).got_le.trans (Nat.le_succ _)
  packet hp := (h.waiting hp).packet_le

/-- **Every access of the loop stays inside its buffer**, and the buffers are what they should be at
every loop head, in every sequence of calls in which the indices of the head bytes and the lengths
of the accepted headers survive their conversions to `int`. -/
theorem loopBounds_of_survives (B : Build) (u : Uninit) (head tail : Byte) (cs : List (Chunk B))
    (hok : ∀ d q i, Visit B (fresh u head tail) cs d q i → q.Goes B d.bytes i →
      q.HeadposSurvives B d.bytes i ∧ q.DatalenSurvives B d.bytes i)
    (d : Chunk B) (q : CPacketSync) (i : ℕ) (hv : Visit B (fresh u head tail) cs d q i) :
    LoopBounds B q ∧ (q.Goes B d.bytes i → q.turn B d.bytes i ≠ none) := by
  obtain ⟨hq, hi, out, rest, hs⟩ := hv.inv (inv_fresh B u head tail (bufferSize_le_maxCap B)) le_rfl
    (.inl rfl) fun d r j _ _ hv _ _ _ hg _ => hok d r j hv hg
  refine ⟨hq.loopBounds, fun hg => ?_⟩
  obtain ⟨hfit, hlen⟩ := hok d q i hv hg
  rcases turn_spec hq le_rfl hi d.size hg (.inl rfl) hfit hlen with ⟨_, _, _, ht, -⟩ | ⟨_, ht, -⟩
  · rw [ht]
    simp
  · rw [ht]
    simp

/-- An accepted header that announces `2 ^ 31 - 1` bytes or more makes `getdatalen` the image of a
negative `int`, and as many bytes are copied: more than there are. -/
theorem startFrame_fault {p : CPacketSync} (hlen : p.threadReaddata.len ≤ maxCap B)
    (hroom : p.offset + 1 + B.headLen ≤ p.truepacketlen)
    (htrue : p.truepacketlen ≤ p.threadReaddata.len) (h₀ : 0 ≤ p.headpos)
    (hd₀ : 2 ^ 31 ≤ p.theNexPacket.datalen + 1) (hd₁ : p.theNexPacket.datalen + 1 < 2 ^ 32) :
    p.startFrame B = none := by
  have hM := two_pow_le_modulus B.sizeT
  have hle : p.truepacketlen ≤ 2 ^ 31 - 1 + B.headLen := htrue.trans hlen
  have hH := headLen_le B
  have hoff : p.headpos = p.offset := (Int.toNat_of_nonneg h₀).symm
  have hneed : B.toSize (p.theNexPacket.datalen + 1) = p.theNexPacket.datalen + 1 :=
    toSize_eq (by omega) (by omega)
  obtain ⟨av, hav'⟩ : ∃ av, av = p.truepacketlen - p.offset - 1 - B.headLen := ⟨_, rfl⟩
  have hav : B.toSize (p.truepacketlen - p.headpos - 1 - B.headLen) = av :=
    toSize_eq (by omega) (by omega)
  have hfrom : B.toSize (p.headpos + 1 + B.headLen) = p.offset + 1 + B.headLen :=
    toSize_eq (by omega) (by omega)
  simp only [startFrame, hneed, hav]
  generalize p.theNexPacket.datalen + 1 = need at hd₀ hd₁
  obtain ⟨got, hgot, hbig⟩ : ∃ got, B.toSize ((need : ℤ) - 2 ^ 32) = got ∧ need ≤ got := by
    cases hB : B.sizeT with
    | b32 =>
      have hM : B.sizeT.modulus = 2 ^ 32 := by rw [hB]; rfl
      refine ⟨need, ?_, le_rfl⟩
      rw [← toSize_add_mul _ 1, hM]
      exact toSize_eq (by push_cast; omega) (by omega)
    | b64 => exact ⟨_, toSize_wrap hB hd₁, by omega⟩
  rw [toInt_wrap hd₀ hd₁, toInt_eq (x := av) (by omega) (by omega), min_eq_right (by omega), hgot,
    hfrom, if_pos (by omega), load_eq_none (by omega)]
  rfl

/-! ## A rejected frame that does not fit -/

section Reject

variable {p q : CPacketSync} {data : List Byte} {iret i : ℕ}

/-- An iteration whose search finds a head byte. -/
theorem turn_of_findIdx (h : Inv B head tail cap p) (hcap : cap ≤ maxCap B)
    (hi : iret ≤ data.length) (hd : 2 * data.length < B.sizeT.modulus)
    (hp : p.parsetype = .nothing) (hf : (p.window data iret).findIdx? (· == head) = some i) :
    ∃ p₁ n, Buffers head tail cap p₁ ∧ p₁.parsetype = .nothing ∧
      p₁.threadReaddata.base.take p₁.truepacketlen = p.window data iret ∧
      p₁.truepacketlen = p.truepacketlen + n ∧
      n = min (data.length - iret) (p.threadReaddata.len - p.truepacketlen) ∧
      p.turn B data iret = (p₁.readHeader B i).bind (afterSearch B data (iret + n)) := by
  obtain ⟨p₁, n, htop, hn, hb₁, hp₁, htrue₁, hwin, -⟩ := topUp_window h.toBuffers hcap hi hd
  refine ⟨p₁, n, hb₁, hp₁.trans hp, hwin, htrue₁, hn, ?_⟩
  have hsearch : p₁.searchHead B = p₁.readHeader B i := by
    simp only [searchHead]
    rw [load_eq (by omega) hb₁.true_le, Option.bind_eq_bind, Option.bind_some, slice_zero, hwin,
      hb₁.head_eq, hf]
  simp only [turn, hp, htop, Option.bind_eq_bind, Option.bind_some, hsearch]

/-- The bytes behind an index of the window. -/
theorem behind_of_take {w : List Byte} (hw : p.threadReaddata.base.take p.truepacketlen = w) :
    p.behind i = w.drop (i + 1) := by
  rw [behind, ← drop_window, hw]

/-- An iteration on an accepted header is the start of its frame. -/
theorem turn_of_candidate (h : Inv B head tail cap p) (hcap : cap ≤ maxCap B)
    (hi : iret ≤ data.length) (hd : 2 * data.length < B.sizeT.modulus)
    (hp : p.parsetype = .nothing) (hf : (p.window data iret).findIdx? (· == head) = some i)
    {c : NetPacket} (hc : candidate B head tail ((p.window data iret).drop i) = some c) :
    ∃ (p₁ : CPacketSync) (n : ℕ), p₁.threadReaddata.len ≤ maxCap B ∧
      p₁.offset + 1 + B.headLen ≤ p₁.truepacketlen ∧
      p₁.truepacketlen ≤ p₁.threadReaddata.len ∧ 0 ≤ p₁.headpos ∧ p₁.theNexPacket = c ∧
      n = min (data.length - iret) (p.threadReaddata.len - p.truepacketlen) ∧
      p.turn B data iret = (p₁.startFrame B).bind fun q => q.turnBody B data (iret + n) := by
  obtain ⟨p₁, n, hb₁, hp₁, hwin, htrue₁, hn, hturn⟩ := turn_of_findIdx h hcap hi hd hp hf
  obtain ⟨hlt, hcons, -⟩ := findIdx_head hf
  rw [hcons] at hc
  obtain ⟨hxl, rfl, hh, ht⟩ := candidate_cons hc
  have hbehind := behind_of_take (i := i) hwin
  have hlen := hb₁.true_le
  have hfull : i + 1 + B.headLen ≤ p₁.truepacketlen := by
    rw [← hwin, List.length_drop, List.length_take] at hxl
    have := headLen_ge B
    omega
  rw [readHeader_eq hlen (hb₁.len_le.trans hcap) hfull, hbehind,
    if_neg (by rw [hb₁.head_eq, hb₁.tail_eq, hh, ht]; simp)] at hturn
  refine ⟨{ p₁ with headpos := (i : ℤ), theNexPacket := _ }, n, hb₁.len_le.trans hcap, ?_, hlen,
    Int.natCast_nonneg i, rfl, hn, ?_⟩
  · exact hfull
  · rw [hturn, Option.bind_map]
    rfl

/-- A frame with a bad tail or checksum that is longer than the read buffer: its bytes behind the
head byte become the read buffer. -/
theorem turn_reject (h : Inv B head tail (maxCap B) p) (hp : p.parsetype = .nothing)
    (htrue : p.truepacketlen = 0) (hd : 2 * data.length < B.sizeT.modulus) {c : NetPacket}
    (hc : candidate B head tail data = some c) (hdl : c.datalen ≤ 2 ^ 31 - 2)
    (hl : data.length = 1 + B.headLen + (c.datalen + 1)) (hbig : p.threadReaddata.len < data.length)
    (hrej : (signedScan B head tail).decide data = some (1, none)) :
    ∃ q, p.turn B data 0 = some (.next q data.length none) ∧ Inv B head tail (maxCap B) q ∧
      q.parsetype = .nothing ∧ q.pending B = data.drop 1 := by
  obtain ⟨xs, rfl⟩ := candidate_head hc
  obtain ⟨hxl, rfl, hh, ht⟩ := candidate_cons hc
  rw [List.length_cons] at hl hbig
  have hsize := h.toBuffers.size_le
  have hH := headLen_ge B
  have hH' := headLen_le B
  rw [bufferSize_eq] at hsize
  have hw : p.window (head :: xs) 0 = head :: xs.take (p.threadReaddata.len - 1) := by
    simp only [window, htrue, List.take_zero, List.nil_append, List.drop_zero]
    rw [← Nat.sub_add_cancel (show 1 ≤ p.threadReaddata.len by omega), List.take_succ_cons,
      Nat.sub_add_cancel (by omega)]
  obtain ⟨p₁, n, hb₁, hp₁, hwin, htrue₁, hn, hturn⟩ := turn_of_findIdx h le_rfl (Nat.zero_le _) hd
    hp (show (p.window (head :: xs) 0).findIdx? (· == head) = some 0 by
      rw [hw]
      simp [List.findIdx?_cons])
  rw [htrue, Nat.zero_add] at htrue₁
  rw [htrue, Nat.sub_zero, List.length_cons, Nat.sub_zero, Nat.min_eq_right (by omega)] at hn
  have hbehind : p₁.behind 0 = xs.take (p.threadReaddata.len - 1) := by
    rw [behind_of_take hwin, hw]
    rfl
  have hpacket : charToNetPacket B (p₁.behind 0) = charToNetPacket B xs := by
    rw [hbehind]
    exact charToNetPacket_take B (by omega) (by omega)
  obtain ⟨p₂, hread, hb₂, hp₂, hframe, hstream⟩ := readHeader_frame hb₁ le_rfl (i := 0)
    (by rw [hwin, hw]; simp [List.findIdx?_cons]) (by omega) (by rw [hpacket]; exact hh)
    (by rw [hpacket]; exact ht) (by rw [hpacket]; exact hdl)
  -- an accepted header at the start of the stream is the header of the frame
  have hsame : ∀ {r : CPacketSync} (zs : List Byte), InFrame B head tail r →
      r.headerBytes B ++ zs = head :: xs → r.theNexPacket = charToNetPacket B xs := by
    intro r zs hr heq
    have := candidate_append hr.header zs
    rw [heq, hc] at this
    exact (Option.some.inj this).symm
  have hlong : ∀ {r : CPacketSync} {ys : List Byte}, Buffers head tail (maxCap B) r →
      Complete B head tail r → r.stream B ++ ys = head :: xs →
      (head :: xs).length ≤ (r.stream B).length := by
    intro r ys hb hr heq
    have hst := hr.stream_eq
    have hpk := hr.packet_le
    unfold UvBuf.len at hpk
    have hn := hsame _ hr.toInFrame (by rw [← heq, hst, List.append_assoc, List.append_assoc])
    rw [hst, List.length_append, List.length_append, hr.length_headerBytes hb, List.length_take, hn,
      List.length_cons, hl]
    rw [hn] at hpk
    omega
  have hdata : p₂.stream B ++ (head :: xs).drop n = head :: xs := by
    rw [hstream, hbehind, hn, ← Nat.sub_add_cancel (show 1 ≤ p.threadReaddata.len by omega),
      List.drop_succ_cons, Nat.add_sub_cancel, List.cons_append, List.take_append_drop]
  rcases hframe with hw₂ | hc₂
  swap
  · have h₁ := hlong hb₂ hc₂ hdata
    have h₂ := congrArg List.length hdata
    simp only [List.length_append, List.length_drop, List.length_cons] at h₁ h₂
    omega
  have hst₂ : p₂.stream B = p₂.pending B := by
    have := hw₂.got_le
    have := hw₂.avail_le
    simp only [stream, pending, hp₂]
    rw [if_neg (by omega)]
  rw [hst₂] at hdata
  have hnl : n ≤ (head :: xs).length := by
    rw [List.length_cons]
    omega
  rcases fillBody_spec hb₂ hp₂ hw₂ hnl hd with
    ⟨p₃, -, hb₃, hp₃, hw₃, hpend⟩ | ⟨p₃, i₃, hfill, hb₃, hc₃, -, hi₃, hst₃⟩
  · -- the data is complete, so the frame cannot wait
    have hpend' := hpend.trans hdata
    have hgot := hw₃.got_le
    simp only [pending, hp₃] at hpend'
    have h₁ := congrArg List.length hpend'
    rw [hsame _ hw₃.toInFrame hpend'] at hgot
    rw [List.length_append, hw₃.length_headerBytes hb₃, List.length_take, List.length_cons] at h₁
    omega
  · rw [hdata] at hst₃
    have h₁ := hlong hb₃ hc₃ hst₃
    have h₂ := congrArg List.length hst₃
    rw [List.length_append, List.length_drop] at h₂
    have hi : i₃ = (head :: xs).length := by omega
    rw [hi, List.drop_length, List.append_nil] at hst₃
    obtain ⟨p₄, o, k, hcheck, hb₄, hp₄, hdec, -, hpend⟩ := checkFrame_spec hb₃ le_rfl hc₃ [] (by
      intro _
      have := hc₃.datalen_le
      unfold maxCap
      omega)
    rw [List.append_nil, hst₃, hrej, Option.some.injEq, Prod.mk.injEq] at hdec
    obtain ⟨rfl, ho⟩ := hdec
    obtain rfl : o = none := by simpa using ho.symm
    refine ⟨p₄, ?_, .of_nothing hb₄ hp₄, hp₄, by rw [hpend, hst₃]⟩
    rw [hturn, hread, Option.bind_some]
    simp only [afterSearch, turnBody, Nat.zero_add, hfill, Option.bind_eq_bind, Option.bind_some, hcheck, hi]

/-- Without unread input the window is what the parser holds. -/
theorem window_length (h : Inv B head tail cap p) (hp : p.parsetype = .nothing) :
    p.window data data.length = p.pending B := by
  have := h.toBuffers.true_le
  rw [window, List.drop_length, List.append_nil, List.take_take, Nat.min_eq_right this]
  simp only [pending, hp]

/-- A bad header in what the parser holds is dropped with its head byte. -/
theorem turn_badHeader (h : Inv B head tail cap p) (hcap : cap ≤ maxCap B)
    (hd : 2 * data.length < B.sizeT.modulus) (hp : p.parsetype = .nothing) {pre t : List Byte}
    (hpend : p.pending B = pre ++ head :: t) (hpre : ∀ b ∈ pre, b ≠ head)
    (hl : B.headLen ≤ t.length)
    (hbad : (charToNetPacket B t).header ≠ head ∨ (charToNetPacket B t).tail ≠ tail) :
    ∃ q, p.turn B data data.length = some (.next q data.length none) ∧ Inv B head tail cap q ∧
      q.parsetype = .nothing ∧ q.pending B = t := by
  have hwin : p.window data data.length = pre ++ head :: t := by rw [window_length h hp, hpend]
  have hf : (pre ++ head :: t).findIdx? (· == head) = some pre.length := by
    rw [List.findIdx?_append, List.findIdx?_eq_none_iff.2 (by simpa using hpre)]
    simp [List.findIdx?_cons]
  obtain ⟨p₁, n, hb₁, hp₁, hw₁, htrue₁, hn, hturn⟩ :=
    turn_of_findIdx h hcap le_rfl hd hp (by rw [hwin]; exact hf)
  rw [Nat.sub_self, Nat.zero_min] at hn
  have hlen := congrArg List.length hw₁
  rw [hwin, List.length_append, List.length_cons, List.length_take] at hlen
  have hbehind : p₁.behind pre.length = t := by
    rw [behind_of_take hw₁, hwin, ← List.drop_drop, List.drop_left]
    rfl
  obtain ⟨q, hread, hb, hq, hpend'⟩ := readHeader_bad hb₁ hcap hp₁ (i := pre.length) (by omega)
    (by rw [hbehind]; exact hbad)
  refine ⟨q, ?_, .of_nothing hb hq, hq, by rw [hpend', hbehind]⟩
  rw [hturn, hread, hn, Option.bind_some]
  rfl

/-- The first head byte stands too far behind for an `int`. -/
theorem not_headposSurvives (hB : B.sizeT = .b64) (h : Inv B head tail cap p)
    (hp : p.parsetype = .nothing) {pre : List Byte} (hpend : p.pending B = pre ++ [head])
    (hpre : ∀ b ∈ pre, b ≠ head) (h₀ : 2 ^ 31 ≤ pre.length) (h₁ : pre.length < 2 ^ 32) :
    ¬ p.HeadposSurvives B data data.length := by
  intro hfit
  have hf := hfit hp
  rw [window_length h hp, hpend, h.toBuffers.head_eq] at hf
  have := hf pre.length (by
    rw [List.findIdx?_append, List.findIdx?_eq_none_iff.2 (by simpa using hpre)]
    simp [List.findIdx?_cons])
  rw [toInt_wrap h₀ h₁, toSize_wrap hB h₁] at this
  omega

end Reject

/-! ## The inputs that reach the conversions -/

/-- The header bytes of a packet whose other fields are zero, with four given bytes of `datalen`. -/
def plainHeader (datalen : List Byte) : List Byte :=
  [0, 0, 0, 0, serverPacketHead, serverPacketTail] ++ List.replicate 20 0 ++ datalen ++
    List.replicate 20 0

/-- The header that announces `2 ^ 31 - 2` bytes. -/
def hugeHeader : List Byte := plainHeader [0xfe, 0xff, 0xff, 0x7f]

theorem hugeHeader_eq :
    hugeHeader = [0, 0, 0, 0] ++ serverPacketHead :: (hugeHeader.drop 5) := by decide

theorem hugeHeader_append (ys : List Byte) :
    hugeHeader ++ ys = [0, 0, 0, 0] ++ serverPacketHead :: (hugeHeader.drop 5 ++ ys) := by
  rw [← List.cons_append, ← List.append_assoc, ← hugeHeader_eq]

theorem hugeHeader_skip : ∀ b ∈ hugeHeader.drop 5, b ≠ serverPacketHead := by decide

theorem charToNetPacket_hugeHeader : (charToNetPacket zeroBuild hugeHeader).header =
    serverPacketHead ∧ (charToNetPacket zeroBuild hugeHeader).tail = serverPacketTail ∧
      (charToNetPacket zeroBuild hugeHeader).datalen = 2 ^ 31 - 2 := by
  decide

section Huge

variable {body : List Byte}

theorem length_huge (hl : body.length = 2 ^ 31 - 2) :
    (serverPacketHead :: (hugeHeader ++ (body ++ [1]))).length = 2 ^ 31 + 50 := by
  have hH : hugeHeader.length = 50 := by decide
  simp only [List.length_cons, List.length_append, hH, hl, List.length_nil]
  norm_num

theorem candidate_huge (ys : List Byte) :
    candidate zeroBuild serverPacketHead serverPacketTail
      (serverPacketHead :: (hugeHeader ++ ys)) =
      some (charToNetPacket zeroBuild hugeHeader) := by
  obtain ⟨hh, ht, -⟩ := charToNetPacket_hugeHeader
  have h : candidate zeroBuild serverPacketHead serverPacketTail (serverPacketHead :: hugeHeader) =
      some (charToNetPacket zeroBuild hugeHeader) := candidate_of_header (by decide) hh ht
  exact candidate_append h ys

theorem decide_huge (hl : body.length = 2 ^ 31 - 2) {last : Byte → Bool}
    (hlast : last 1 = false) :
    (scan zeroBuild serverPacketHead serverPacketTail last).decide
      (serverPacketHead :: (hugeHeader ++ (body ++ [1]))) = some (1, none) := by
  have hd := charToNetPacket_hugeHeader.2.2
  have hH : hugeHeader.length = zeroBuild.headLen := by decide
  have hlen : zeroBuild.headLen + ((charToNetPacket zeroBuild hugeHeader).datalen + 1) ≤
      (hugeHeader ++ (body ++ [1])).length := by
    rw [List.length_append, List.length_append, hH, hd, hl, List.length_singleton]
  have hget : (hugeHeader ++ (body ++ [1])).getD
      (zeroBuild.headLen + (charToNetPacket zeroBuild hugeHeader).datalen) 0 = 1 := by
    rw [hd, List.getD_append_right _ _ _ _ (by omega), hH, Nat.add_sub_cancel_left, ← hl,
      List.getD_append_right _ _ _ _ le_rfl, Nat.sub_self, List.getD_cons_zero]
  rw [decide_complete (candidate_huge _) hlen, hget, if_pos (.inl (by rw [hlast]; simp))]

/-- The bytes behind the delimiter in the header are no head byte but for the last one. -/
theorem huge_skip (hb : ∀ b ∈ body, b = 0) : ∀ b ∈ hugeHeader.drop 5 ++ body, b ≠ serverPacketHead := by
  intro b hmem
  rcases List.mem_append.1 hmem with h | h
  · exact hugeHeader_skip b h
  · rw [hb b h]
    decide

theorem huge_badHeader (ys : List Byte) :
    (charToNetPacket zeroBuild (hugeHeader.drop 5 ++ ys)).header ≠ serverPacketHead := by
  rw [charToNetPacket_append zeroBuild (by decide)]
  decide

/-- All lengths announced in the stream are in range. -/
theorem everywhere_huge (hb : ∀ b ∈ body, b = 0) (hl : body.length = 2 ^ 31 - 2) :
    (reference zeroBuild serverPacketHead serverPacketTail).Everywhere
      (LengthAtMost zeroBuild serverPacketHead serverPacketTail (2 ^ 31 - 2))
      (serverPacketHead :: (hugeHeader ++ (body ++ [1]))) := by
  refine .of_decide ?_ (decide_huge hl (by decide)) ?_
  · intro c hc
    rw [candidate_huge] at hc
    rw [← Option.some.inj hc, charToNetPacket_hugeHeader.2.2]
  rw [List.drop_one, List.tail_cons, hugeHeader_append]
  have hzero : ∀ b ∈ ([0, 0, 0, 0] : List Byte), b ≠ serverPacketHead := by decide
  refine everywhere_skip (fun _ _ h => LengthAtMost.skip h _) hzero ?_
  have hlong : zeroBuild.headLen ≤ (hugeHeader.drop 5 ++ (body ++ [1])).length := by
    have hH : (hugeHeader.drop 5).length = 45 := by decide
    have hH' := headLen_le zeroBuild
    rw [List.length_append, List.length_append, hH, hl]
    omega
  refine .of_decide (.of_none ?_) (decide_badHeader hlong (.inl (huge_badHeader _))) ?_
  · refine if_neg ?_
    rintro ⟨-, -, h, -⟩
    exact huge_badHeader _ h
  rw [List.drop_one, List.tail_cons, ← List.append_assoc]
  refine everywhere_skip (fun _ _ h => LengthAtMost.skip h _) (huge_skip hb) ?_
  have hnone : (reference zeroBuild serverPacketHead serverPacketTail).decide [1] = none :=
    decide_short rfl (by decide)
  exact .of_decide_none (.of_none (by decide)) hnone

/-- After the rejected frame and the bad header in it, the first head byte stands behind `2 ^ 31`
other bytes. -/
theorem visit_huge (hb : ∀ b ∈ body, b = 0) (hl : body.length = 2 ^ 31 - 2) (u : Uninit)
    (c : Chunk zeroBuild) (hc : c.bytes = serverPacketHead :: (hugeHeader ++ (body ++ [1]))) :
    ∃ q, Visit zeroBuild (fresh u serverPacketHead serverPacketTail) [c] c q c.bytes.length ∧
      q.Goes zeroBuild c.bytes c.bytes.length ∧
      ¬ q.HeadposSurvives zeroBuild c.bytes c.bytes.length := by
  have hinv := inv_fresh zeroBuild u serverPacketHead serverPacketTail
    (bufferSize_le_maxCap zeroBuild)
  have hlen := length_huge hl
  have hH : zeroBuild.headLen = 50 := by decide
  have hd := charToNetPacket_hugeHeader.2.2
  rw [← hc] at hlen
  have hread : (fresh u serverPacketHead serverPacketTail).threadReaddata.len = 10240 :=
    u.readdata.toList_length
  have hcand : candidate zeroBuild serverPacketHead serverPacketTail c.bytes =
      some (charToNetPacket zeroBuild hugeHeader) := by rw [hc, candidate_huge]
  have hrej : (signedScan zeroBuild serverPacketHead serverPacketTail).decide c.bytes =
      some (1, none) := by
    rw [hc]
    exact decide_huge hl (by decide)
  obtain ⟨q₁, ht₁, hq₁, hp₁, hpend₁⟩ := turn_reject hinv rfl rfl c.size hcand (by rw [hd])
    (by rw [hlen, hH, hd]; norm_num) (by rw [hread, hlen]; norm_num) hrej
  rw [hc, List.drop_one, List.tail_cons, hugeHeader_append] at hpend₁
  have hskip : (hugeHeader.drop 5).length = 45 := by decide
  have htrue₁ := congrArg List.length hpend₁
  rw [hq₁.toBuffers.length_pending hp₁] at htrue₁
  simp only [List.length_append, List.length_cons, hskip, hl, List.length_nil] at htrue₁
  obtain ⟨q₂, ht₂, hq₂, hp₂, hpend₂⟩ := turn_badHeader hq₁ le_rfl c.size hp₁ hpend₁ (by decide)
    (by rw [List.length_append, List.length_append, hskip, hl, hH]; norm_num)
    (.inl (huge_badHeader _))
  rw [← List.append_assoc] at hpend₂
  have htrue₂ := congrArg List.length hpend₂
  rw [hq₂.toBuffers.length_pending hp₂] at htrue₂
  simp only [List.length_append, List.length_cons, hskip, hl, List.length_nil] at htrue₂
  have hv : LoopHead zeroBuild c.bytes (fresh u serverPacketHead serverPacketTail) 0 q₂
      c.bytes.length := by
    refine .next (.next .start (.inl ?_) ht₁) (.inr ?_) ht₂
    · rw [hlen]
      norm_num
    · rw [hH]
      omega
  refine ⟨q₂, .now hv, .inr (by rw [hH]; omega), ?_⟩
  refine not_headposSurvives rfl hq₂ hp₂ hpend₂ (huge_skip hb) ?_ ?_
  · rw [List.length_append, hskip, hl]
    norm_num
  · rw [List.length_append, hskip, hl]
    norm_num

end Huge

/-- The stream of one frame that announces `2 ^ 31 - 2` bytes of data, all zero, with a wrong
tail. -/
def hugeFrame : Chunk zeroBuild where
  bytes := serverPacketHead :: (hugeHeader ++ (List.replicate (2 ^ 31 - 2) 0 ++ [1]))
  size := by
    rw [length_huge List.length_replicate]
    show 2 * (2 ^ 31 + 50) < 2 ^ 64
    norm_num

/-- On that stream, in a single chunk, the parser does not refine the reference parser. -/
theorem hugeFrame_not_refines :
    (reference zeroBuild serverPacketHead serverPacketTail).Everywhere
      (LengthAtMost zeroBuild serverPacketHead serverPacketTail (2 ^ 31 - 2))
      (streamOf [hugeFrame]) ∧
    ¬ Refines zeroBuild serverPacketHead serverPacketTail
      (fresh zeroUninit serverPacketHead serverPacketTail) [hugeFrame] := by
  have hb : ∀ b ∈ List.replicate (2 ^ 31 - 2) (0 : Byte), b = 0 :=
    fun b h => List.eq_of_mem_replicate h
  have hstream : streamOf [hugeFrame] =
      serverPacketHead :: (hugeHeader ++ (List.replicate (2 ^ 31 - 2) 0 ++ [1])) := by
    rw [streamOf_cons, streamOf_nil, List.append_nil, hugeFrame]
  obtain ⟨q, hv, hg, hq⟩ := visit_huge hb List.length_replicate zeroUninit hugeFrame rfl
  have hlen := everywhere_huge hb List.length_replicate
  rw [← hstream] at hlen
  refine ⟨hlen, fun hr => ?_⟩
  obtain ⟨r, out, hf, -⟩ := hr _ (List.prefix_refl _)
  rw [← signedScan_eq (by decide)] at hlen
  exact hq (headposSurvives_of_feed le_rfl (inv_fresh _ _ _ _ (bufferSize_le_maxCap _)) (.inl rfl)
    hlen hf hv hg)

/-- A byte in front, a frame with a wrong tail, and a whole frame. -/
def mixedBytes : List Byte :=
  7 :: serverPacketHead :: (plainHeader [1, 0, 0, 0] ++ [9, 1]) ++
    serverPacketHead :: (plainHeader [1, 0, 0, 0] ++ [9, serverPacketTail])

/-- These bytes up to the middle of the second frame. -/
def firstChunk : Chunk zeroBuild := ⟨mixedBytes.take 80, by decide⟩

/-- The rest of them. -/
def secondChunk : Chunk zeroBuild := ⟨mixedBytes.drop 80, by decide⟩

theorem streamOf_mixed : streamOf [firstChunk, secondChunk] = mixedBytes := by decide

/-- The packet of the second frame. -/
def mixedPacket : Packet := ⟨⟨0, serverPacketHead, serverPacketTail, .replicate 16 0, 0, 1, 0⟩, [9]⟩

theorem run_mixed : (reference zeroBuild serverPacketHead serverPacketTail).run mixedBytes =
    ([mixedPacket], []) := by decide +kernel

theorem everywhere_mixed {P : List Byte → Prop} {last : Byte → Bool}
    (hP : ∀ ys, LengthAtMost zeroBuild serverPacketHead serverPacketTail 1 ys → P ys) :
    (scan zeroBuild serverPacketHead serverPacketTail last).Everywhere P
      (streamOf [firstChunk, secondChunk]) := by
  have hlengths : ∀ ys ∈ mixedBytes.tails,
      ∀ c ∈ candidate zeroBuild serverPacketHead serverPacketTail ys, c.datalen ≤ 1 := by decide +kernel
  rw [streamOf_mixed]
  exact .of_suffixes fun ys hys => hP ys fun c hc => hlengths ys ((List.mem_tails _ _).2 hys) c hc

theorem lengths_mixed {last : Byte → Bool} :
    (scan zeroBuild serverPacketHead serverPacketTail last).Everywhere
      (LengthAtMost zeroBuild serverPacketHead serverPacketTail (2 ^ 31 - 2))
      (streamOf [firstChunk, secondChunk]) :=
  everywhere_mixed fun _ h c hc => (h c hc).trans (by decide)

theorem roomFor_mixed : RoomFor zeroBuild serverPacketHead serverPacketTail (2 ^ 31)
    (streamOf [firstChunk, secondChunk]) :=
  .inr (everywhere_mixed fun _ h c hc _ => (h c hc).trans (by decide))

theorem inv_zeroUninit : Inv zeroBuild serverPacketHead serverPacketTail (2 ^ 31)
    (fresh zeroUninit serverPacketHead serverPacketTail) :=
  inv_fresh zeroBuild zeroUninit serverPacketHead serverPacketTail (by decide)

theorem survives_mixed {d : Chunk zeroBuild} {q : CPacketSync} {i : ℕ}
    (hv : Visit zeroBuild (fresh zeroUninit serverPacketHead serverPacketTail) [firstChunk, secondChunk]
      d q i) : q.HeadposSurvives zeroBuild d.bytes i ∧ q.DatalenSurvives zeroBuild d.bytes i := by
  refine hv.survives le_rfl inv_zeroUninit ?_ ?_
  · exact roomFor_mixed
  · exact lengths_mixed

/-- The frame with a wrong tail is dropped, and the packet behind it delivered. -/
theorem refines_mixed : ∃ q out, (fresh zeroUninit serverPacketHead serverPacketTail).feed zeroBuild
    [firstChunk, secondChunk] = .done q out ∧ out.map Delivery.packet = [mixedPacket] := by
  obtain ⟨q, out, hfeed, hout⟩ := (refines_iff_headposSurvives zeroBuild zeroUninit
    [firstChunk, secondChunk] lengths_mixed).2 (fun _ _ _ hv _ => (survives_mixed hv).1) _
    (List.prefix_refl _)
  exact ⟨q, out, hfeed, by rw [hout, streamOf_mixed, run_mixed]⟩

/-- A header that announces `2 ^ 31 - 1` bytes of data. -/
def negativeChunk : Chunk zeroBuild :=
  ⟨serverPacketHead :: plainHeader [0xff, 0xff, 0xff, 0x7f], by decide⟩

/-- That header is enough for a copy out of bounds. -/
theorem negativeChunk_fault :
    ¬ ∀ d q i, Visit zeroBuild (fresh zeroUninit serverPacketHead serverPacketTail)
      [negativeChunk] d q i →
        LoopBounds zeroBuild q ∧ (q.Goes zeroBuild d.bytes i → q.turn zeroBuild d.bytes i ≠ none) := by
  intro h
  have hinv := inv_fresh zeroBuild zeroUninit serverPacketHead serverPacketTail
    (bufferSize_le_maxCap zeroBuild)
  refine (h negativeChunk _ 0 (.now .start)).2 (.inl (by decide)) ?_
  have hwin : (fresh zeroUninit serverPacketHead serverPacketTail).window negativeChunk.bytes 0 =
      negativeChunk.bytes := by
    have hl : negativeChunk.bytes.length = 51 := by decide
    rw [window_fresh]
    exact List.take_of_length_le (by rw [hl, bufferSize_eq]; norm_num)
  have hcand : candidate zeroBuild serverPacketHead serverPacketTail negativeChunk.bytes =
      some (charToNetPacket zeroBuild (plainHeader [0xff, 0xff, 0xff, 0x7f])) := by decide
  obtain ⟨p₁, n, hlen, hroom, htrue, h₀, hpacket, -, hturn⟩ := turn_of_candidate hinv le_rfl
    (Nat.zero_le _) negativeChunk.size rfl (i := 0) (by rw [hwin]; decide)
    (by rw [hwin, List.drop_zero, hcand])
  rw [hturn, startFrame_fault hlen hroom htrue h₀, Option.bind_none]
  · rw [hpacket]
    decide
  · rw [hpacket]
    decide

/-- Nothing goes wrong in the call on the second chunk, which begins inside a frame. -/
theorem loopBounds_mixed : ∃ p out, (fresh zeroUninit serverPacketHead serverPacketTail).recvdata zeroBuild
      firstChunk.bytes = .done p out ∧ LoopBounds zeroBuild p ∧ p.Goes zeroBuild secondChunk.bytes 0 ∧
      p.turn zeroBuild secondChunk.bytes 0 ≠ none := by
  obtain ⟨_, _, hfeed, -⟩ := feed_of_bounded le_rfl [firstChunk, secondChunk] inv_zeroUninit roomFor_mixed rfl
    lengths_mixed
  obtain ⟨p, out, -, hcall, -⟩ := feed_cons_done hfeed
  obtain ⟨hbounds, hturn⟩ := loopBounds_of_survives zeroBuild zeroUninit serverPacketHead serverPacketTail
    [firstChunk, secondChunk] (fun _ _ _ hv _ => survives_mixed hv) secondChunk p 0 (.later hcall (.now .start))
  have hgoes : p.Goes zeroBuild secondChunk.bytes 0 := .inl (by decide)
  exact ⟨p, out, hcall, hbounds, hgoes, hturn hgoes⟩

end CPacketSync

end SimpleUv
