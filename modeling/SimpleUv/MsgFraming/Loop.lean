import SimpleUv.MsgFraming.Reader

/-!
# The loop of `uv_stream_msg_read`

The loop takes decisions of the decoder of length-prefixed messages, as long as it meets no length from
`2 ^ 31 - 4` on (`ReadLoop.turn_call`, `readLoop_spec`). The first such length makes `msg_size` or
`msg_size + 4` a negative `int`, and `msg_read_cb` is given a negative size or bytes that were never
received. So the loop is safe exactly when the decoder meets no such length (`loopSafe_iff`).
-/

namespace SimpleUv

open Foundations

/-- The decoder of the messages. -/
def msgDecoder : Decoder Byte (List Byte) := LengthPrefix.decoder 4 (by norm_num)

/-- If the stream begins with a length, then that is one with which the size of the whole message is an
`int`. -/
def Honest (ys : List Byte) : Prop := 4 ≤ ys.length → LengthPrefix.announced 4 ys < 2 ^ 31 - 4

theorem decide_msgDecoder_some {xs : List Byte} {n : ℕ} {o : Option (List Byte)}
    (h : msgDecoder.decide xs = some (n, o)) :
    n = 4 + LengthPrefix.announced 4 xs ∧ n ≤ xs.length ∧
      o = some ((xs.drop 4).take (LengthPrefix.announced 4 xs)) := by
  have hn := (msgDecoder.pos h).2
  replace h : LengthPrefix.decide 4 xs = some (n, o) := h
  unfold LengthPrefix.decide at h
  split_ifs at h
  cases h
  exact ⟨rfl, hn, rfl⟩

theorem decide_msgDecoder_nil : msgDecoder.decide [] = none := by
  have h : ([] : List Byte).length < 4 + LengthPrefix.announced 4 ([] : List Byte) :=
    Nat.lt_add_right _ (by norm_num)
  exact LengthPrefix.decide_eq_none.2 h

theorem announced_lt_two_pow (xs : List Byte) : LengthPrefix.announced 4 xs < 2 ^ 32 :=
  (LengthPrefix.announced_lt xs).trans_le (by norm_num)

section Turn

variable {B : Build} {b : UvBuf} {p f : ℕ}

/-- The bytes from the pointer on begin with the length that the iteration reads. -/
theorem msgSizeAt_eq (h : p + f ≤ b.len) (hf : 4 ≤ f) :
    msgSizeAt B b p = some (toInt (LengthPrefix.announced 4 (slice b.base p f))) := by
  have hlen : (slice b.base p 4).length = 4 := length_slice (by unfold UvBuf.len at h; omega)
  rw [msgSizeAt, if_pos (by omega), Int.toNat_natCast, UvBuf.len,
    load_eq (by unfold UvBuf.len at h; omega) le_rfl, Option.map_some, htonl_word B.order hlen, word,
    LengthPrefix.announced, take_slice hf]

theorem ReadLoop.turn_of_lt (hf : f < 4) : (⟨p, f⟩ : ReadLoop).turn B b = some .stop := by
  rw [ReadLoop.turn, if_neg]
  show ¬ (4 : ℤ) ≤ f
  omega

/-- An iteration that reads a length. -/
theorem ReadLoop.turn_eq (hf : 4 ≤ f) {size : ℤ} (hsize : msgSizeAt B b p = some size) :
    (⟨p, f⟩ : ReadLoop).turn B b =
      if toInt (size + 4) ≤ f then
        some (.call (p + 4) size
          ⟨if toInt (size + 4) < f then p + toInt (size + 4) else p, toInt (f - toInt (size + 4))⟩)
      else some .stop := by
  have hf' : (4 : ℤ) ≤ f := by omega
  unfold ReadLoop.turn
  simp only [if_pos hf', hsize, Option.bind_eq_bind, Option.bind_some]

theorem toInt_honest {a : ℕ} (ha : a < 2 ^ 31 - 4) :
    toInt a = a ∧ toInt (toInt a + 4) = (a + 4 : ℕ) := by
  have h₀ : toInt a = a := toInt_eq (by omega) (by omega)
  refine ⟨h₀, ?_⟩
  rw [h₀, toInt_eq (by omega) (by omega)]
  omega

/-- Without a complete message the loop ends. -/
theorem ReadLoop.turn_stop (h : p + f ≤ b.len) (hh : Honest (slice b.base p f))
    (hdec : msgDecoder.decide (slice b.base p f) = none) :
    (⟨p, f⟩ : ReadLoop).turn B b = some .stop := by
  have hlen : (slice b.base p f).length = f := length_slice h
  rcases lt_or_ge f 4 with hf | hf
  · exact turn_of_lt hf
  · have hwait := LengthPrefix.decide_eq_none.1 hdec
    rw [turn_eq hf (msgSizeAt_eq h hf), (toInt_honest (hh (by omega))).2, if_neg (by omega)]

/-- **A complete message** is given to `msg_read_cb`. -/
theorem ReadLoop.turn_call (h : p + f ≤ b.len) (hlen : b.len < 2 ^ 31)
    (hh : Honest (slice b.base p f)) {n : ℕ} {o : Option (List Byte)}
    (hdec : msgDecoder.decide (slice b.base p f) = some (n, o)) :
    ∃ m q, o = some m ∧ n = 4 + m.length ∧ n ≤ f ∧ q + (f - n) ≤ p + f ∧
      (⟨p, f⟩ : ReadLoop).turn B b =
        some (.call (p + 4 : ℕ) m.length ⟨(q : ℕ), (f - n : ℕ)⟩) ∧
      slice b.base (p + 4) m.length = m ∧
      slice b.base q (f - n) = (slice b.base p f).drop n := by
  have hslice : (slice b.base p f).length = f := length_slice h
  obtain ⟨hn, hle, rfl⟩ := decide_msgDecoder_some hdec
  rw [hslice] at hle
  obtain ⟨a, ha⟩ : ∃ a, LengthPrefix.announced 4 (slice b.base p f) = a := ⟨_, rfl⟩
  rw [ha] at hn ⊢
  have hsmall : a < 2 ^ 31 - 4 := ha ▸ hh (by omega)
  obtain ⟨hsize, hentire⟩ := toInt_honest hsmall
  have hread := msgSizeAt_eq (B := B) h (show 4 ≤ f by omega)
  rw [ha] at hread
  have hm : ((slice b.base p f).drop 4).take a = slice b.base (p + 4) a := by
    rw [drop_slice, take_slice (by omega)]
  have hmlen : (slice b.base (p + 4) a).length = a := length_slice (by unfold UvBuf.len at h; omega)
  have hleft : toInt ((f : ℤ) - (a + 4 : ℕ)) = (f - n : ℕ) := by
    rw [toInt_eq (by omega) (by omega)]
    omega
  have hptr : (if ((a + 4 : ℕ) : ℤ) < f then (p : ℤ) + (a + 4 : ℕ) else p) =
      (if n < f then p + n else p : ℕ) := by
    split_ifs <;> omega
  refine ⟨_, if n < f then p + n else p, rfl, ?_, hle, ?_, ?_, ?_, ?_⟩
  · rw [hm, hmlen, hn]
  · split_ifs <;> omega
  · rw [turn_eq (by omega) hread, hentire, hsize, if_pos (by omega), hptr, hleft, hm, hmlen]
    rfl
  · rw [hm, hmlen]
  · rw [drop_slice]
    split_ifs with hlt
    · rfl
    · rw [show f - n = 0 by omega, slice_nil_of_zero, slice_nil_of_zero]

/-- **A dishonest length** makes the size negative, or larger than what can have been received. -/
theorem ReadLoop.turn_dishonest (h : p + f ≤ b.len) (hh : ¬ Honest (slice b.base p f)) :
    ∃ size next, (⟨p, f⟩ : ReadLoop).turn B b = some (.call (p + 4) size next) ∧
      (size < 0 ∨ 2 ^ 31 - 4 ≤ size) := by
  have hslice : (slice b.base p f).length = f := length_slice h
  have hlt := announced_lt_two_pow (slice b.base p f)
  unfold Honest at hh
  push Not at hh
  obtain ⟨a, ha⟩ : ∃ a, LengthPrefix.announced 4 (slice b.base p f) = a := ⟨_, rfl⟩
  rw [ha] at hh hlt
  rw [hslice] at hh
  have hentire : toInt (toInt a + 4) ≤ f := by
    rw [toInt_toInt_add]
    obtain ⟨c, hc⟩ := exists_toInt (a + 4 : ℤ)
    have := toInt_mem (a + 4 : ℤ)
    omega
  have hread := msgSizeAt_eq (B := B) h hh.1
  rw [ha] at hread
  have hturn := turn_eq hh.1 hread
  rw [if_pos hentire] at hturn
  refine ⟨_, _, hturn, ?_⟩
  rcases lt_or_ge a (2 ^ 31) with ha' | ha'
  · rw [toInt_eq (by omega) (by omega)]
    omega
  · rw [toInt_wrap ha' hlt]
    omega

end Turn

/-! ## The loop as a whole -/

/-- The loop gets from one state of its variables to another. -/
inductive Reaches (B : Build) (b : UvBuf) : ReadLoop → ReadLoop → Prop
  | refl (l : ReadLoop) : Reaches B b l l
  | step {l l' l'' : ReadLoop} {msg size : ℤ} (h : l.turn B b = some (.call msg size l'))
      (hr : Reaches B b l' l'') : Reaches B b l l''

variable {B : Build} {b : UvBuf}

/-- **The loop decodes** the bytes in the buffer. -/
theorem readLoop_spec (hlen : b.len < 2 ^ 31) (k : ℕ) {p f : ℕ} (h : p + f ≤ b.len) (hk : f < k)
    (hh : msgDecoder.Everywhere Honest (slice b.base p f)) :
    ∃ p' f' calls, readLoop B b k ⟨p, f⟩ = .done ⟨(p' : ℕ), (f' : ℕ)⟩ calls ∧ p' + f' ≤ p + f ∧
      calls.map b.message = (msgDecoder.run (slice b.base p f)).1.map .message ∧
      slice b.base p' f' = (msgDecoder.run (slice b.base p f)).2 := by
  induction k generalizing p f with
  | zero => omega
  | succ k ih =>
    cases hdec : msgDecoder.decide (slice b.base p f) with
    | none =>
      refine ⟨p, f, [], ?_, le_rfl, ?_, ?_⟩
      · simp only [readLoop, ReadLoop.turn_stop h hh.here hdec]
      · rw [Decoder.run_of_decide_none hdec]
        rfl
      · rw [Decoder.run_of_decide_none hdec]
    | some r =>
      obtain ⟨n, o⟩ := r
      obtain ⟨m, q, rfl, hn, hnf, hq, hturn, hm, hrest⟩ :=
        ReadLoop.turn_call (B := B) h hlen hh.here hdec
      have hstep := Decoder.Steps.one hdec
      rw [← hrest] at hstep
      obtain ⟨p', f', calls, hloop, hle, hcalls, hleft⟩ := ih (by omega) (by omega)
        (hh.of_steps hstep)
      refine ⟨p', f', ((p + 4 : ℕ), (m.length : ℤ)) :: calls, ?_, by omega, ?_, ?_⟩
      · simp only [readLoop, hturn, hloop]
      · rw [hstep.run_eq, List.map_cons, hcalls, Option.toList_some, List.singleton_append,
          List.map_cons]
        congr 1
        simp only [UvBuf.message, Int.toNat_natCast, hm]
      · rw [hstep.run_eq, hleft]

theorem reaches_of_readLoop {k : ℕ} {l l' : ReadLoop} {calls : List (ℤ × ℤ)}
    (h : readLoop B b k l = .done l' calls) : Reaches B b l l' ∧ l'.turn B b = some .stop := by
  induction k generalizing l calls with
  | zero => cases h
  | succ k ih =>
    unfold readLoop at h
    split at h
    · cases h
    · next hstop =>
      cases h
      exact ⟨.refl _, hstop⟩
    · next hcall =>
      split at h
      · next hloop =>
        cases h
        obtain ⟨hr, hstop⟩ := ih hloop
        exact ⟨.step hcall hr, hstop⟩
      · next hloop =>
        exact absurd h (hloop _ _)

/-- What must hold whenever the loop condition is evaluated: the pointer and the number of bytes are
inside the buffer, the length is read inside it, and `msg_read_cb` is given bytes that were received. -/
structure ReadLoop.Sound (B : Build) (b : UvBuf) (allocSize total : ℤ) (l : ReadLoop) : Prop where
  ptr : 0 ≤ l.ptr ∧ l.ptr ≤ allocSize
  filled : 0 ≤ l.filled ∧ l.filled ≤ allocSize
  turns : l.turn B b ≠ none
  calls : ∀ msg size next, l.turn B b = some (.call msg size next) →
    0 ≤ size ∧ 0 ≤ msg ∧ msg + size ≤ total

/-- The loop ends, and is sound on the way. -/
structure LoopSafe (B : Build) (b : UvBuf) (allocSize total : ℤ) : Prop where
  ends : ∃ l, Reaches B b ⟨0, total⟩ l ∧ l.turn B b = some .stop
  sound : ∀ l, Reaches B b ⟨0, total⟩ l → l.Sound B b allocSize total

/-- Where the loop gets on honest lengths. -/
theorem sound_of_reaches (hlen : b.len < 2 ^ 31) {p f : ℕ} {l l' : ReadLoop} {total : ℕ}
    (hr : Reaches B b l l') (hl : l = ⟨p, f⟩) (h : p + f ≤ total) (htotal : total ≤ b.len)
    (hh : msgDecoder.Everywhere Honest (slice b.base p f)) : l'.Sound B b b.len total := by
  induction hr generalizing p f with
  | refl l =>
    subst hl
    have hptr : (0 : ℤ) ≤ p ∧ (p : ℤ) ≤ b.len := by omega
    have hfilled : (0 : ℤ) ≤ f ∧ (f : ℤ) ≤ b.len := by omega
    cases hdec : msgDecoder.decide (slice b.base p f) with
    | none =>
      have hturn := ReadLoop.turn_stop (B := B) (by omega) hh.here hdec
      exact ⟨hptr, hfilled, by rw [hturn]; nofun, by rw [hturn]; nofun⟩
    | some r =>
      obtain ⟨m, q, -, hn, hnf, hq, hturn, -⟩ :=
        ReadLoop.turn_call (B := B) (by omega) hlen hh.here hdec
      refine ⟨hptr, hfilled, by rw [hturn]; nofun, fun msg size next hcall => ?_⟩
      rw [hturn] at hcall
      cases hcall
      omega
  | step hcall _ ih =>
    subst hl
    cases hdec : msgDecoder.decide (slice b.base p f) with
    | none =>
      rw [ReadLoop.turn_stop (by omega) hh.here hdec] at hcall
      cases hcall
    | some r =>
      obtain ⟨n, o⟩ := r
      obtain ⟨m, q, rfl, hn, hnf, hq, hturn, -, hrest⟩ :=
        ReadLoop.turn_call (B := B) (by omega) hlen hh.here hdec
      rw [hturn] at hcall
      cases hcall
      refine ih rfl (by omega) ?_
      rw [hrest]
      exact hh.of_steps (.one hdec)

/-- On a dishonest length the loop is not sound. -/
theorem not_sound_of_dishonest (hlen : b.len < 2 ^ 31) {p f : ℕ} {total : ℤ} (h : p + f ≤ b.len)
    (htotal : total ≤ b.len) (hbad : ¬ Honest (slice b.base p f)) :
    ¬ (⟨p, f⟩ : ReadLoop).Sound B b b.len total := by
  obtain ⟨size, next, hturn, hsize⟩ := ReadLoop.turn_dishonest (B := B) h hbad
  intro hsound
  have := hsound.calls _ _ _ hturn
  omega

/-- **The loop gets to a dishonest length** that the decoder meets. -/
theorem not_sound_of_steps (hlen : b.len < 2 ^ 31) {p f : ℕ} {total : ℤ} {xs ys : List Byte}
    {out : List (List Byte)} (hs : msgDecoder.Steps xs out ys) (hx : xs = slice b.base p f)
    (h : p + f ≤ b.len) (htotal : total ≤ b.len) (hy : ¬ Honest ys) :
    ∃ l, Reaches B b ⟨p, f⟩ l ∧ ¬ l.Sound B b b.len total := by
  induction hs generalizing p f with
  | refl xs => exact ⟨_, .refl _, not_sound_of_dishonest hlen h htotal (hx ▸ hy)⟩
  | @step xs n o out ys hdec hs ih =>
    subst hx
    by_cases hh : Honest (slice b.base p f)
    · obtain ⟨m, q, rfl, hn, hnf, hq, hturn, -, hrest⟩ :=
        ReadLoop.turn_call (B := B) h hlen hh hdec
      obtain ⟨l, hr, hl⟩ := ih hrest.symm (by omega) hy
      exact ⟨l, .step hturn hr, hl⟩
    · exact ⟨_, .refl _, not_sound_of_dishonest hlen h htotal hh⟩

/-- **The loop is safe exactly when it meets no dishonest length.** -/
theorem loopSafe_iff (hlen : b.len < 2 ^ 31) {f : ℕ} (hf : f ≤ b.len) :
    LoopSafe B b b.len f ↔ msgDecoder.Everywhere Honest (b.base.take f) := by
  rw [← slice_zero]
  constructor
  · intro hsafe out ys hs
    by_contra hy
    obtain ⟨l, hr, hl⟩ := not_sound_of_steps (B := B) (p := 0) (f := f) hlen hs rfl
      (by omega) (show (f : ℤ) ≤ b.len by omega) hy
    exact hl (hsafe.sound l hr)
  · intro hh
    obtain ⟨p, g, calls, hloop, -⟩ := readLoop_spec (B := B) hlen (f + 1) (p := 0) (f := f)
      (by omega) (by omega) hh
    exact ⟨⟨_, reaches_of_readLoop hloop⟩, fun l hr =>
      sound_of_reaches (p := 0) (f := f) hlen hr rfl (by omega) hf hh⟩

end SimpleUv
