import SimpleUv.PacketSync.Invariant

/-!
# The search for a frame

One iteration of `recvdata` that starts between frames: `topUp_spec` fills the read buffer,
`readHeader_short`, `readHeader_full` and `searchHead_spec` say what becomes of its bytes: the
iteration takes decisions of `signedScan` on the bytes held and the unread input. The conditions are
those of the two conversions to `int`: the index of the head byte survives (`HeadposFits`), and so
does the announced length (`LengthFits`). An index that does not survive is a fault
(`searchHead_fault`).
-/

namespace SimpleUv

open Foundations

namespace CPacketSync

variable {B : Build} {head tail : Byte} {cap : ℕ} {p : CPacketSync}

/-- The unread input fills the room in the read buffer. -/
theorem topUp_spec (h : Buffers head tail cap p) (hcap : cap ≤ maxCap B) {data : List Byte}
    {iret : ℕ} (hi : iret ≤ data.length) (hd : data.length < B.sizeT.modulus) :
    ∃ rd n, n = min (data.length - iret) (p.threadReaddata.len - p.truepacketlen) ∧
      p.topUp B data iret =
        some ({ p with threadReaddata := rd, truepacketlen := p.truepacketlen + n }, iret + n) ∧
      rd.len = p.threadReaddata.len ∧
      rd.base.take (p.truepacketlen + n) =
        p.threadReaddata.base.take p.truepacketlen ++ slice data iret n := by
  obtain ⟨-, -, -, -, hlen, htrue⟩ := h
  have hM := maxCap_lt B
  have hunread : B.toSize (data.length - iret) = data.length - iret :=
    toSize_eq (by omega) (by omega)
  have hroom : B.toSize (p.threadReaddata.len - p.truepacketlen) =
      p.threadReaddata.len - p.truepacketlen := toSize_eq (by omega) (by omega)
  refine ⟨⟨overwrite p.threadReaddata.base p.truepacketlen (slice data iret
    (min (data.length - iret) (p.threadReaddata.len - p.truepacketlen)))⟩, _, rfl, ?_, ?_, ?_⟩
  · have hs : ∀ n, n ≤ data.length - iret → n ≤ p.threadReaddata.len - p.truepacketlen →
        p.truepacketlen + (slice data iret n).length ≤ p.threadReaddata.len := by
      intro n h₁ h₂
      rw [length_slice (by omega)]
      omega
    simp only [topUp, hunread, hroom]
    split_ifs with hle
    · rw [load_eq (by omega) le_rfl]
      simp only [Option.bind_eq_bind, Option.bind_some]
      rw [UvBuf.store_eq (hs _ le_rfl hle), Option.bind_some, Nat.min_eq_left hle]
      rw [toSize_eq (n := p.truepacketlen + (data.length - iret)) (by omega) (by omega)]
      congr 2
      omega
    · rw [load_eq (by omega) le_rfl]
      simp only [Option.bind_eq_bind, Option.bind_some]
      rw [UvBuf.store_eq (hs _ (by omega) le_rfl), Option.bind_some, Nat.min_eq_right (by omega)]
      rw [toSize_eq (n := iret + (p.threadReaddata.len - p.truepacketlen)) (by omega) (by omega)]
      congr 3
      omega
  · refine UvBuf.len_overwrite ?_
    rw [length_slice (by omega)]
    omega
  · refine take_overwrite htrue ?_
    rw [length_slice (by omega)]

/-- Moving valid bytes to the front of the read buffer. -/
theorem moveFront_spec (off n : ℕ) (hn : off + n ≤ p.truepacketlen)
    (ht : p.truepacketlen ≤ p.threadReaddata.len) :
    ∃ rd, p.moveFront off n = some rd ∧ rd.len = p.threadReaddata.len ∧
      rd.base.take n = slice p.threadReaddata.base off n := by
  have hl : (slice p.threadReaddata.base off n).length = n := by
    unfold UvBuf.len at ht
    exact length_slice (by omega)
  refine ⟨⟨overwrite p.threadReaddata.base 0 (slice p.threadReaddata.base off n)⟩, ?_, ?_, ?_⟩
  · simp only [moveFront]
    rw [load_eq hn ht, Option.bind_eq_bind, Option.bind_some, UvBuf.store_eq (by omega)]
  · exact UvBuf.len_overwrite (by omega)
  · exact overwrite_zero_take hl.symm

/-- After an accepted header, the packet buffer takes what the read buffer has of data and
tail. -/
theorem startFrame_spec (hl : p.truepacketlen ≤ p.threadReaddata.len)
    (hcap : p.threadReaddata.len ≤ maxCap B) (h₀ : 0 ≤ p.headpos)
    (hroom : p.offset + 1 + B.headLen ≤ p.truepacketlen)
    (hd : p.theNexPacket.datalen ≤ 2 ^ 31 - 2) :
    ∃ pd, p.startFrame B = some { p with
        parsetype := .head
        threadPacketdata := pd
        getdatalen := min (p.avail B) (p.theNexPacket.datalen + 1) } ∧
      p.theNexPacket.datalen + 1 ≤ pd.len ∧
      pd.base.take (min (p.avail B) (p.theNexPacket.datalen + 1)) =
        slice p.threadReaddata.base (p.offset + 1 + B.headLen)
          (min (p.avail B) (p.theNexPacket.datalen + 1)) := by
  have hM := maxCap_lt B
  have hoff : p.headpos = p.offset := (Int.toNat_of_nonneg h₀).symm
  have hneed : B.toSize (p.theNexPacket.datalen + 1) = p.theNexPacket.datalen + 1 :=
    toSize_eq (by omega) (by unfold maxCap at hM; omega)
  have havail : B.toSize (p.truepacketlen - p.headpos - 1 - B.headLen) = p.avail B :=
    toSize_eq (by unfold avail; omega) (by unfold avail; omega)
  have hgot : B.toSize (min (toInt (p.avail B)) (toInt ((p.theNexPacket.datalen + 1 : ℕ) : ℤ))) =
      min (p.avail B) (p.theNexPacket.datalen + 1) := by
    unfold maxCap at hcap hM
    unfold avail
    rw [toInt_eq (by omega) (by omega), toInt_eq (by omega) (by omega)]
    exact toSize_eq (by omega) (by omega)
  set got := min (p.avail B) (p.theNexPacket.datalen + 1) with hgot'
  set pd := if p.threadPacketdata.len < p.theNexPacket.datalen + 1 then
    p.threadPacketdata.realloc B (p.theNexPacket.datalen + 1) else p.threadPacketdata with hpd
  have hpdl : p.theNexPacket.datalen + 1 ≤ pd.len := by
    rw [hpd]
    split_ifs with hlt
    · rw [UvBuf.len_realloc B hlt.le]
    · omega
  have hsrc : p.offset + 1 + B.headLen + got ≤ p.truepacketlen := by
    rw [hgot']
    unfold avail
    omega
  have hslice : (slice p.threadReaddata.base (p.offset + 1 + B.headLen) got).length = got := by
    unfold UvBuf.len at hl
    exact length_slice (by omega)
  simp only [startFrame, hneed, havail, hgot, ← hpd]
  split_ifs with hpos
  · refine ⟨⟨overwrite pd.base 0 (slice p.threadReaddata.base (p.offset + 1 + B.headLen) got)⟩,
      ?_, ?_, ?_⟩
    · rw [toSize_eq (n := p.offset + 1 + B.headLen) (by omega) (by omega), load_eq hsrc hl]
      simp only [Option.bind_eq_bind, Option.bind_some]
      rw [UvBuf.store_eq (by omega), Option.bind_some]
    · rw [UvBuf.len_overwrite (by omega)]
      exact hpdl
    · exact overwrite_zero_take hslice.symm
  · obtain hz : got = 0 := by omega
    refine ⟨pd, rfl, hpdl, ?_⟩
    rw [hz, List.take_zero, slice_nil_of_zero]

/-- The frame that starts after an accepted header is complete or waits for data or tail; the bytes
held are those from the head byte on. -/
theorem startFrame_frame (h : Buffers head tail cap p) (hcap : cap ≤ maxCap B)
    (h₀ : 0 ≤ p.headpos) (hroom : p.offset + 1 + B.headLen ≤ p.truepacketlen)
    (hc : candidate B head tail (p.headerBytes B) = some p.theNexPacket)
    (hd : p.theNexPacket.datalen ≤ 2 ^ 31 - 2) :
    ∃ p', p.startFrame B = some p' ∧ Buffers head tail cap p' ∧ p'.parsetype = .head ∧
      (Waiting B head tail p' ∨ Complete B head tail p') ∧
      p'.stream B = slice p.threadReaddata.base p.offset (p.truepacketlen - p.offset) := by
  obtain ⟨pd, hstart, hpd, htake⟩ :=
    startFrame_spec (B := B) h.true_le (h.len_le.trans hcap) h₀ hroom hd
  refine ⟨_, hstart, ⟨h.cb, h.head_eq, h.tail_eq, h.size_le, h.len_le, h.true_le⟩, rfl, ?_, ?_⟩
  · by_cases hw : p.theNexPacket.datalen + 1 ≤ p.avail B
    · right
      rw [Nat.min_eq_right hw] at htake ⊢
      exact ⟨⟨h₀, hroom, hc, hd, hpd⟩, rfl, fun _ => htake⟩
    · left
      rw [Nat.min_eq_left (by omega)] at htake ⊢
      exact ⟨⟨h₀, hroom, hc, hd, hpd⟩, le_rfl, Nat.lt_succ_iff.1 (not_le.1 hw)⟩
  · show (if p.theNexPacket.datalen + 1 ≤ p.avail B then _ else
      p.headerBytes B ++ pd.base.take (min (p.avail B) (p.theNexPacket.datalen + 1))) = _
    split_ifs with hw
    · rfl
    · have hn : 1 + B.headLen + p.avail B = p.truepacketlen - p.offset := by
        unfold avail
        omega
      rw [htake, Nat.min_eq_left (by omega), headerBytes, Nat.add_assoc p.offset,
        slice_append_slice, hn]

/-! ## The head byte -/

/-- Where the first head byte stands. -/
theorem findIdx_head {w : List Byte} {i : ℕ} (h : w.findIdx? (· == head) = some i) :
    i < w.length ∧ w.drop i = head :: w.drop (i + 1) ∧ ∀ b ∈ w.take i, b ≠ head := by
  obtain ⟨hi, hw, hlt⟩ := List.findIdx?_eq_some_iff_getElem.1 h
  refine ⟨hi, ?_, ?_⟩
  · rw [List.drop_eq_getElem_cons hi, show w[i] = head by simpa using hw]
  · intro b hb
    obtain ⟨j, hj, rfl⟩ := List.getElem_of_mem hb
    rw [List.length_take] at hj
    have := hlt j (by omega)
    simpa using this

/-- The index of the first head byte survives its conversion to `int`. -/
def HeadposFits (B : Build) (head : Byte) (w : List Byte) : Prop :=
  ∀ i, w.findIdx? (· == head) = some i → B.toSize (toInt i) = i

/-- An accepted header at the first head byte announces a length that survives its conversion to
`int` with the tail counted. -/
def LengthFits (B : Build) (head tail : Byte) (w : List Byte) : Prop :=
  ∀ i, w.findIdx? (· == head) = some i → LengthAtMost B head tail (2 ^ 31 - 2) (w.drop i)

theorem HeadposFits.of_le {w : List Byte} (h : w.length ≤ 2 ^ 31) : HeadposFits B head w := by
  intro i hi
  have hlt := (findIdx_head hi).1
  have hM := two_pow_le_modulus B.sizeT
  rw [toInt_eq (by omega) (by omega)]
  exact toSize_eq (by omega) (by omega)

/-- The head byte and all that follows it in the read buffer. -/
theorem drop_window {i : ℕ} :
    (p.threadReaddata.base.take p.truepacketlen).drop i =
      slice p.threadReaddata.base i (p.truepacketlen - i) := drop_take_eq_slice _ _ _

/-- What `searchHead` and `readHeader` do: either the loop goes on with fewer bytes, unless all of
them are the beginning of a header; or a frame is found. In both cases the reference parser drops
the same bytes. -/
def SearchResult (B : Build) (head tail : Byte) (cap : ℕ) (p : CPacketSync) (rest : List Byte)
    (r : Option Found) : Prop :=
  (∃ p', r = some (.again p') ∧ Buffers head tail cap p' ∧ p'.parsetype = .nothing ∧
    (signedScan B head tail).Steps (p.pending B ++ rest) [] (p'.pending B ++ rest) ∧
    (p'.truepacketlen < p.truepacketlen ∨
      p'.truepacketlen = p.truepacketlen ∧ p.truepacketlen ≤ B.headLen)) ∨
  ∃ p', r = some (.frame p') ∧ Buffers head tail cap p' ∧ p'.parsetype = .head ∧
    (Waiting B head tail p' ∨ Complete B head tail p') ∧
    (signedScan B head tail).Steps (p.pending B ++ rest) [] (p'.stream B ++ rest) ∧
    (p'.stream B).length ≤ p.truepacketlen

/-- The bytes before the head byte are skipped. -/
theorem steps_window (B : Build) (tail : Byte) (hp : p.parsetype = .nothing) (rest : List Byte) {i : ℕ}
    (hskip : ∀ b ∈ (p.threadReaddata.base.take p.truepacketlen).take i, b ≠ head) :
    (signedScan B head tail).Steps (p.pending B ++ rest) []
      (slice p.threadReaddata.base i (p.truepacketlen - i) ++ rest) := by
  have hs : (signedScan B head tail).Steps _ [] _ :=
    steps_skip hskip (slice p.threadReaddata.base i (p.truepacketlen - i) ++ rest)
  rw [← List.append_assoc, ← drop_window, List.take_append_drop] at hs
  simpa only [pending, hp, drop_window] using hs

/-- The header is not complete: the bytes from the head byte on go to the front. -/
theorem readHeader_short (h : Buffers head tail cap p) (hcap : cap ≤ maxCap B)
    (hp : p.parsetype = .nothing) (rest : List Byte) {i : ℕ}
    (hi : (p.threadReaddata.base.take p.truepacketlen).findIdx? (· == head) = some i)
    (hfit : B.toSize (toInt i) = i) (hshort : p.truepacketlen - i - 1 < B.headLen) :
    SearchResult B head tail cap p rest (p.readHeader B i) := by
  obtain ⟨hlt, -, hskip⟩ := findIdx_head hi
  have hM := maxCap_lt B
  have htrue := h.true_le
  have hlen := h.len_le
  rw [List.length_take] at hlt
  have hwl : i < p.truepacketlen := by omega
  clear hlt hi
  obtain ⟨c, hc⟩ := exists_of_toSize hfit
  have hsize₁ : B.toSize (p.truepacketlen - toInt i - 1) = p.truepacketlen - i - 1 := by
    rw [show (p.truepacketlen : ℤ) - toInt i - 1 =
      ((p.truepacketlen - i - 1 : ℕ) : ℤ) + B.sizeT.modulus * -c by rw [hc, mul_neg]; omega,
      toSize_add_mul]
    exact toSize_natCast (by omega)
  have hsize₂ : B.toSize (p.truepacketlen - toInt i) = p.truepacketlen - i := by
    rw [show (p.truepacketlen : ℤ) - toInt i =
      ((p.truepacketlen - i : ℕ) : ℤ) + B.sizeT.modulus * -c by rw [hc, mul_neg]; omega,
      toSize_add_mul]
    exact toSize_natCast (by omega)
  have hsteps := steps_window B tail hp rest hskip
  left
  simp only [readHeader, hsize₁, if_pos hshort]
  split_ifs with hz
  · obtain ⟨rd, hmove, hrd, htake⟩ := moveFront_spec (p := { p with headpos := toInt i })
      i (p.truepacketlen - i) (by simp only; omega) htrue
    refine ⟨{ p with headpos := toInt i, threadReaddata := rd, truepacketlen := p.truepacketlen - i },
      ?_, ?_, hp, ?_, ?_⟩
    · rw [hfit, hsize₂, hmove]
      rfl
    · exact ⟨h.cb, h.head_eq, h.tail_eq, hrd ▸ h.size_le, hrd ▸ hlen, by simp only [hrd]; omega⟩
    · simpa only [pending, hp, htake] using hsteps
    · left
      have : i ≠ 0 := by
        rintro rfl
        exact hz (by rw [toInt_eq] <;> norm_num)
      show p.truepacketlen - i < p.truepacketlen
      omega
  · refine ⟨{ p with headpos := toInt i }, rfl, ⟨h.cb, h.head_eq, h.tail_eq, h.size_le, hlen, htrue⟩,
      hp, ?_, ?_⟩
    · simp only [pending, hp]
      exact .refl _
    · right
      have : i = 0 := by
        rw [← hfit, not_not.1 hz]
        exact toSize_eq rfl (by omega)
      subst this
      exact ⟨rfl, by omega⟩

/-- A header behind the head byte keeps the index of the head byte in the range of `int`. -/
theorem toInt_of_room {i n : ℕ} (hfull : i + 1 + B.headLen ≤ n) (hn : n ≤ maxCap B) :
    toInt i = i ∧ toInt ((i : ℤ) + 1) = (i + 1 : ℕ) := by
  unfold maxCap at hn
  constructor
  · exact toInt_eq (by omega) (by omega)
  · rw [toInt_eq (by omega) (by omega), Nat.cast_succ]

/-- The bytes of the read buffer behind index `i`. -/
def behind (p : CPacketSync) (i : ℕ) : List Byte :=
  slice p.threadReaddata.base (i + 1) (p.truepacketlen - (i + 1))

theorem length_behind {i : ℕ} (htrue : p.truepacketlen ≤ p.threadReaddata.len)
    (hi : i < p.truepacketlen) : (p.behind i).length = p.truepacketlen - (i + 1) := by
  unfold UvBuf.len at htrue
  exact length_slice (by omega)

/-- The head byte found, and the bytes behind it. -/
theorem slice_head {i : ℕ}
    (hi : (p.threadReaddata.base.take p.truepacketlen).findIdx? (· == head) = some i) :
    slice p.threadReaddata.base i (p.truepacketlen - i) = head :: p.behind i := by
  obtain ⟨-, hdrop, -⟩ := findIdx_head hi
  rw [behind, ← drop_window, ← drop_window]
  exact hdrop

/-- A complete header: without the conversions. -/
theorem readHeader_eq (htrue : p.truepacketlen ≤ p.threadReaddata.len)
    (hcap : p.threadReaddata.len ≤ maxCap B) {i : ℕ} (hfull : i + 1 + B.headLen ≤ p.truepacketlen) :
    p.readHeader B i =
      if (charToNetPacket B (p.behind i)).header ≠ p.head ∨
          (charToNetPacket B (p.behind i)).tail ≠ p.tail then
        (p.moveFront (i + 1) (p.truepacketlen - (i + 1))).map fun rd =>
          .again { p with
            headpos := (i : ℤ), theNexPacket := charToNetPacket B (p.behind i)
            threadReaddata := rd, truepacketlen := p.truepacketlen - (i + 1) }
      else
        (startFrame B { p with
          headpos := (i : ℤ), theNexPacket := charToNetPacket B (p.behind i) }).map .frame := by
  have hM := maxCap_lt B
  have hH := headLen_ge B
  have hlen := length_behind htrue (show i < p.truepacketlen by omega)
  have hsize : B.toSize (p.truepacketlen - i - 1) = p.truepacketlen - (i + 1) :=
    toSize_eq (by omega) (by omega)
  have hsize' : B.toSize (p.truepacketlen - (i + 1 : ℕ)) = p.truepacketlen - (i + 1) :=
    toSize_eq (by omega) (by omega)
  have hchars : charToNetPacket B (slice p.threadReaddata.base (i + 1) 34) =
      charToNetPacket B (p.behind i) := by
    rw [← take_slice (m := p.truepacketlen - (i + 1)) (by omega)]
    exact charToNetPacket_take B le_rfl (le_trans (by omega) hlen.ge)
  obtain ⟨hint, hint'⟩ := toInt_of_room hfull (htrue.trans hcap)
  simp only [readHeader, hint, hint', hsize, hsize']
  clear hint hint'
  rw [if_neg (by omega), toSize_natCast (n := i + 1) (by omega), load_eq (by omega) htrue,
    Option.bind_eq_bind, Option.bind_some, hchars, toSize_eq (n := i + 1) (by norm_num) (by omega)]
  simp only [Nat.not_lt_zero, or_false, Option.bind_eq_bind]
  split_ifs
  · rw [Option.map_eq_bind]
    rfl
  · rw [Option.map_eq_bind]
    rfl

/-- A header with other delimiters is dropped with its head byte. -/
theorem readHeader_bad (h : Buffers head tail cap p) (hcap : cap ≤ maxCap B)
    (hp : p.parsetype = .nothing) {i : ℕ} (hfull : i + 1 + B.headLen ≤ p.truepacketlen)
    (hbad : (charToNetPacket B (p.behind i)).header ≠ head ∨
      (charToNetPacket B (p.behind i)).tail ≠ tail) :
    ∃ p', p.readHeader B i = some (.again p') ∧ Buffers head tail cap p' ∧
      p'.parsetype = .nothing ∧ p'.pending B = p.behind i := by
  have htrue := h.true_le
  obtain ⟨rd, hmove, hrd, htake⟩ := moveFront_spec (i + 1) (p.truepacketlen - (i + 1))
    (by omega) htrue
  rw [readHeader_eq htrue (h.len_le.trans hcap) hfull,
    if_pos (by rwa [h.head_eq, h.tail_eq]), hmove]
  refine ⟨_, rfl, ⟨h.cb, h.head_eq, h.tail_eq, hrd ▸ h.size_le, hrd ▸ h.len_le, ?_⟩, hp, ?_⟩
  · show p.truepacketlen - (i + 1) ≤ rd.len
    omega
  · simp only [pending, hp, htake]
    rfl

/-- With the right delimiters a frame starts. -/
theorem readHeader_frame (h : Buffers head tail cap p) (hcap : cap ≤ maxCap B) {i : ℕ}
    (hi : (p.threadReaddata.base.take p.truepacketlen).findIdx? (· == head) = some i)
    (hfull : i + 1 + B.headLen ≤ p.truepacketlen)
    (hh : (charToNetPacket B (p.behind i)).header = head)
    (ht : (charToNetPacket B (p.behind i)).tail = tail)
    (hd : (charToNetPacket B (p.behind i)).datalen ≤ 2 ^ 31 - 2) :
    ∃ p', p.readHeader B i = some (.frame p') ∧ Buffers head tail cap p' ∧
      p'.parsetype = .head ∧ (Waiting B head tail p' ∨ Complete B head tail p') ∧
      p'.stream B = head :: p.behind i := by
  have hH := headLen_ge B
  have htrue := h.true_le
  have hlen := length_behind htrue (show i < p.truepacketlen by omega)
  have hheader : slice p.threadReaddata.base i (1 + B.headLen) =
      head :: (p.behind i).take B.headLen := by
    rw [← take_slice (m := p.truepacketlen - i) (by omega), slice_head hi, Nat.add_comm 1,
      List.take_succ_cons]
  have hcand : candidate B head tail (slice p.threadReaddata.base i (1 + B.headLen)) =
      some (charToNetPacket B (p.behind i)) := by
    have hx : charToNetPacket B ((p.behind i).take B.headLen) = charToNetPacket B (p.behind i) :=
      charToNetPacket_take B hH (by omega)
    rw [hheader, candidate_of_header (by rw [List.length_take]; omega) (by rw [hx]; exact hh)
      (by rw [hx]; exact ht), hx]
  obtain ⟨p', hstart, hb, hp', hw, hstream⟩ := startFrame_frame (B := B)
    (p := { p with headpos := (i : ℤ), theNexPacket := charToNetPacket B (p.behind i) })
    ⟨h.cb, h.head_eq, h.tail_eq, h.size_le, h.len_le, htrue⟩ hcap (Int.natCast_nonneg i)
    (by simpa [offset] using hfull) (by simpa [headerBytes, offset] using hcand) hd
  refine ⟨p', ?_, hb, hp', hw, ?_⟩
  · rw [readHeader_eq htrue (h.len_le.trans hcap) hfull,
      if_neg (by simp [h.head_eq, h.tail_eq, hh, ht]), hstart]
    rfl
  · rw [hstream, ← slice_head hi]
    simp only [offset, Int.toNat_natCast]

/-- A complete header: in both cases decisions of the reference parser. -/
theorem readHeader_full (h : Buffers head tail cap p) (hcap : cap ≤ maxCap B)
    (hp : p.parsetype = .nothing) (rest : List Byte) {i : ℕ}
    (hlen : LengthAtMost B head tail (2 ^ 31 - 2)
      ((p.threadReaddata.base.take p.truepacketlen).drop i))
    (hi : (p.threadReaddata.base.take p.truepacketlen).findIdx? (· == head) = some i)
    (hfull : i + 1 + B.headLen ≤ p.truepacketlen) :
    SearchResult B head tail cap p rest (p.readHeader B i) := by
  have hsteps := steps_window B tail hp rest (findIdx_head hi).2.2
  have hbl := length_behind h.true_le (show i < p.truepacketlen by omega)
  rw [slice_head hi] at hsteps
  by_cases hbad : (charToNetPacket B (p.behind i)).header ≠ head ∨
      (charToNetPacket B (p.behind i)).tail ≠ tail
  · left
    obtain ⟨p', hread, hb, hp', hpend⟩ := readHeader_bad h hcap hp hfull hbad
    have hdec : (signedScan B head tail).decide (head :: (p.behind i ++ rest)) =
        some (1, none) := by
      refine decide_badHeader (by rw [List.length_append]; omega) ?_
      rwa [charToNetPacket_append_of_headLen (by omega)]
    refine ⟨p', hread, hb, hp', ?_, .inl ?_⟩
    · rw [hpend]
      exact hsteps.trans (.one hdec)
    · rw [← hb.length_pending (B := B) hp', hpend, hbl]
      omega
  · right
    rw [not_or, not_not, not_not] at hbad
    have hdl : (charToNetPacket B (p.behind i)).datalen ≤ 2 ^ 31 - 2 := by
      refine hlen _ ?_
      rw [drop_window, slice_head hi]
      exact candidate_of_header (by omega) hbad.1 hbad.2
    obtain ⟨p', hread, hb, hp', hw, hstream⟩ := readHeader_frame h hcap hi hfull hbad.1 hbad.2 hdl
    refine ⟨p', hread, hb, hp', hw, ?_, ?_⟩
    · rw [hstream]
      exact hsteps
    · rw [hstream, List.length_cons, hbl]
      omega

/-- **The search for a frame** takes decisions of the reference parser, provided the index of the
head byte survives its conversion to `int`. -/
theorem searchHead_spec (h : Buffers head tail cap p) (hcap : cap ≤ maxCap B)
    (hp : p.parsetype = .nothing) (rest : List Byte)
    (hfit : HeadposFits B head (p.threadReaddata.base.take p.truepacketlen))
    (hlen : LengthFits B head tail (p.threadReaddata.base.take p.truepacketlen)) (hpos : 0 < p.truepacketlen) :
    SearchResult B head tail cap p rest (p.searchHead B) := by
  have htrue := h.true_le
  simp only [searchHead]
  rw [load_eq (by omega) htrue, Option.bind_eq_bind, Option.bind_some, slice_zero]
  cases hi : (p.threadReaddata.base.take p.truepacketlen).findIdx? (· == p.head) with
  | none =>
    left
    refine ⟨_, rfl, ⟨h.cb, h.head_eq, h.tail_eq, h.size_le, h.len_le, Nat.zero_le _⟩, hp, ?_,
      .inl hpos⟩
    have hskip : ∀ b ∈ p.threadReaddata.base.take p.truepacketlen, b ≠ head := by
      intro b hb
      have := List.findIdx?_eq_none_iff.1 hi b hb
      rw [h.head_eq] at this
      simpa using this
    simpa only [pending, hp, List.take_zero, List.nil_append] using steps_skip hskip rest
  | some i =>
    rw [h.head_eq] at hi
    have hfit := hfit i hi
    have hlen := hlen i hi
    by_cases hfull : i + 1 + B.headLen ≤ p.truepacketlen
    · exact readHeader_full h hcap hp rest hlen hi hfull
    · exact readHeader_short h hcap hp rest hi hfit (by have := headLen_ge B; omega)

/-! ## The index that does not fit -/

/-- A `size_t` of 4 bytes holds every index of the read buffer. -/
theorem HeadposFits.of_b32 (hB : B.sizeT = .b32) {w : List Byte} (h : w.length ≤ 2 ^ 32) :
    HeadposFits B head w := by
  intro i hi
  have hlt := (findIdx_head hi).1
  obtain ⟨c, hc⟩ := exists_toInt i
  have hM : B.sizeT.modulus = 2 ^ 32 := by rw [hB]; rfl
  have hc' : toInt i = i + B.sizeT.modulus * c := by
    rw [hc, hM]
    norm_num
  rw [hc', toSize_add_mul]
  exact toSize_natCast (by omega)

/-- An index of the head byte that does not survive its conversion is negative, and the header is
read far behind the read buffer. -/
theorem searchHead_fault (htrue : p.truepacketlen ≤ p.threadReaddata.len)
    (hcap : p.threadReaddata.len ≤ maxCap B)
    (hfit : ¬ HeadposFits B p.head (p.threadReaddata.base.take p.truepacketlen)) :
    p.searchHead B = none := by
  have hH := headLen_le B
  have hle : p.truepacketlen ≤ 2 ^ 31 + 49 := by
    unfold maxCap at hcap
    omega
  have hB : B.sizeT = .b64 := by
    cases hB : B.sizeT with
    | b32 => exact absurd (HeadposFits.of_b32 hB (by rw [List.length_take]; omega)) hfit
    | b64 => rfl
  have hM : B.sizeT.modulus = 2 ^ 64 := by rw [hB]; rfl
  simp only [HeadposFits, not_forall] at hfit
  obtain ⟨i, hi, hne⟩ := hfit
  have hlt := (findIdx_head hi).1
  rw [List.length_take] at hlt
  have hi₀ : 2 ^ 31 ≤ i := by
    by_contra hc
    refine hne ?_
    rw [toInt_eq (by omega) (by omega)]
    exact toSize_natCast (by rw [hM]; omega)
  -- the conversion subtracts `2 ^ 32`
  have hint : toInt i = i - 2 ^ 32 := toInt_wrap hi₀ (by omega)
  have hint' : toInt ((i : ℤ) - 2 ^ 32 + 1) = i - 2 ^ 32 + 1 := toInt_eq (by omega) (by omega)
  have hsize : B.toSize (p.truepacketlen - ((i : ℤ) - 2 ^ 32) - 1) =
      p.truepacketlen + 2 ^ 32 - i - 1 := toSize_eq (by omega) (by rw [hM]; omega)
  have hoff : B.toSize ((i : ℤ) - 2 ^ 32 + 1) = 2 ^ 64 + (i + 1) - 2 ^ 32 := by
    have hcast : (i : ℤ) - 2 ^ 32 + 1 = (i + 1 : ℕ) - 2 ^ 32 := by
      push_cast
      ring
    rw [hcast, toSize_wrap hB (by omega)]
  simp only [searchHead]
  rw [load_eq (by omega) htrue, Option.bind_eq_bind, Option.bind_some, slice_zero, hi]
  simp only [readHeader, hint, hint', hsize, hoff]
  rw [if_neg (by omega), load_eq_none (by omega)]
  rfl

end CPacketSync

end SimpleUv
