import SimpleUv.MsgFraming.Loop

/-!
# The callbacks of the reader

Between callbacks the reader holds either no buffer and no bytes, or a buffer that begins with the
bytes of an incomplete message (`UvMsg.Inv`). `alloc_spec` and `read_spec` say what the two callbacks do
then, as long as `alloc_cb` returns no more than an `int` can count and the lengths are honest.
-/

namespace SimpleUv

open Foundations

/-- What `alloc_cb` returns for a size that is an `int` has a size that is one. It may return less than
is suggested, or nothing. -/
def AllocCb.Bounded (cb : AllocCb) : Prop := ∀ i n b, n < 2 ^ 31 → cb i n = some b → b.len < 2 ^ 31

/-- It returns at least what is suggested. -/
def AllocCb.Generous (cb : AllocCb) : Prop :=
  ∀ i n, n < 2 ^ 31 → ∃ b, cb i n = some b ∧ n ≤ b.len ∧ b.len < 2 ^ 31

theorem AllocCb.Generous.bounded {cb : AllocCb} (h : cb.Generous) : cb.Bounded := by
  intro i n b hn hb
  obtain ⟨b', hb', -, hlt⟩ := h i n hn
  rw [hb] at hb'
  cases hb'
  exact hlt

namespace UvMsg

/-- The bytes in the buffer. -/
def pending (s : UvMsg) : List Byte := (s.buf.getD ⟨[]⟩).base.take s.filled.toNat

/-- The reader holds a buffer, of which `f` bytes are filled. -/
structure Holds (s : UvMsg) (b : UvBuf) (f : ℕ) : Prop where
  buf : s.buf = some b
  size : s.allocSize = b.len
  filled : s.filled = f
  fits : f ≤ b.len
  small : b.len < 2 ^ 31

/-- The reader holds no buffer. -/
structure Released (s : UvMsg) : Prop where
  buf : s.buf = none
  size : s.allocSize = 0
  filled : s.filled = 0

/-- **The invariant between callbacks.** -/
inductive Inv (s : UvMsg) : Prop
  | released (h : s.Released)
  | holds (b : UvBuf) (f : ℕ) (h : s.Holds b f) (hdec : msgDecoder.decide (b.base.take f) = none)
    (hh : Honest (b.base.take f))

variable {B : Build} {cb : AllocCb} {s : UvMsg} {b : UvBuf} {f : ℕ}

theorem Holds.pending (h : s.Holds b f) : s.pending = b.base.take f := by
  rw [UvMsg.pending, h.buf, h.filled]
  rfl

theorem Released.pending (h : s.Released) : s.pending = [] := by
  rw [UvMsg.pending, h.buf, Option.getD_none, List.take_nil]

theorem released_init : init.Released := ⟨rfl, rfl, rfl⟩

theorem Inv.decide (h : s.Inv) : msgDecoder.decide s.pending = none := by
  cases h with
  | released h =>
    rw [h.pending]
    exact decide_msgDecoder_nil
  | holds b f h hdec =>
    rw [h.pending]
    exact hdec

theorem Inv.honest (h : s.Inv) : Honest s.pending := by
  cases h with
  | released h =>
    rw [h.pending]
    exact fun hle => absurd hle (by decide)
  | holds b f h hdec hh =>
    rw [h.pending]
    exact hh

/-- `uv_stream_msg_realloc` keeps the bytes. -/
theorem Holds.realloc (h : s.Holds b f) (hcb : cb.Bounded) {n : ℕ} (hn : n < 2 ^ 31) (hf : f ≤ n) :
    s.realloc B cb n = some ({ s with allocs := s.allocs + 1 }, false) ∧ ¬ cb.Generous ∨
      ∃ t b', s.realloc B cb n = some (t, true) ∧ t.Holds b' f ∧ n ≤ b'.len ∧
        b'.base.take f = b.base.take f := by
  have hmod := two_pow_le_modulus B.sizeT
  have hsmall := h.small
  have hfits := h.fits
  have hbytes : s.filledBytes B = some (b.base.take f) := by
    have hsize : B.toSize s.filled = f := toSize_eq h.filled (by omega)
    rw [filledBytes, h.buf, hsize]
    exact load_eq (by simpa using hfits) le_rfl
  have hlen : (b.base.take f).length = f := by
    rw [List.length_take]
    exact min_eq_left hfits
  unfold UvMsg.realloc
  cases hans : cb s.allocs n with
  | none =>
    refine .inl ⟨rfl, fun hg => ?_⟩
    obtain ⟨b', hb', -⟩ := hg s.allocs n hn
    rw [hans] at hb'
    cases hb'
  | some b' =>
    have hsmall' := hcb s.allocs n b' hn hans
    simp only
    split_ifs with hshort
    · refine .inl ⟨rfl, fun hg => ?_⟩
      obtain ⟨b'', hb'', hge, -⟩ := hg s.allocs n hn
      rw [hans] at hb''
      cases hb''
      omega
    · have hstore : b'.store 0 (b.base.take f) = some ⟨overwrite b'.base 0 (b.base.take f)⟩ :=
        UvBuf.store_eq (by omega)
      have hlen' : (UvBuf.mk (overwrite b'.base 0 (b.base.take f))).len = b'.len :=
        UvBuf.len_overwrite (by omega)
      refine .inr ⟨{ s with
        allocs := s.allocs + 1
        buf := some ⟨overwrite b'.base 0 (b.base.take f)⟩
        allocSize := toInt (UvBuf.mk (overwrite b'.base 0 (b.base.take f))).len },
        ⟨overwrite b'.base 0 (b.base.take f)⟩, ?_, ?_, by omega, ?_⟩
      · simp only [hbytes, hstore, Option.bind_eq_bind, Option.bind_some]
      · refine ⟨rfl, ?_, h.filled, by omega, by omega⟩
        have hsize : toInt (b'.len : ℤ) = b'.len := toInt_eq (by omega) (by omega)
        simp only [hlen', hsize]
      · exact overwrite_zero_take hlen.symm

/-- What `uv_stream_msg_alloc` leaves: the bytes are the same, and the region it offers lies behind
them, inside the buffer, and is not empty. -/
structure Offers (s t : UvMsg) (r : Option StreamBuf) : Prop where
  inv : t.Inv
  pending : t.pending = s.pending
  region : ∀ o, r = some o → ∃ b f, t.Holds b f ∧ o.base = f ∧ 1 ≤ o.len ∧ f + o.len ≤ b.len

theorem Inv.keepAllocs (h : s.Inv) (n : ℕ) : ({ s with allocs := n } : UvMsg).Inv := by
  cases h with
  | released h => exact .released ⟨h.buf, h.size, h.filled⟩
  | holds b f h hdec hh => exact .holds b f ⟨h.buf, h.size, h.filled, h.fits, h.small⟩ hdec hh

/-- A region behind the bytes of the buffer. -/
theorem Holds.offers (h : s.Holds b f) {t : UvMsg} {b' : UvBuf} (h' : t.Holds b' f)
    (hdec : msgDecoder.decide (b.base.take f) = none) (hh : Honest (b.base.take f))
    (hkeep : b'.base.take f = b.base.take f) {e : ℤ} {n : ℕ} (he : e = n) (hf : f < n)
    (hn : n ≤ b'.len) : Offers s t (some ⟨t.filled, B.toSize (toInt (e - t.filled))⟩) := by
  have hmod := two_pow_le_modulus B.sizeT
  have hsmall := h'.small
  have hlen : B.toSize (toInt (e - t.filled)) = n - f := by
    rw [he, h'.filled, toInt_eq (by omega) (by omega)]
    exact toSize_eq (by omega) (by omega)
  refine ⟨.holds b' f h' (hkeep ▸ hdec) (hkeep ▸ hh), ?_, ?_⟩
  · rw [h.pending, h'.pending, hkeep]
  · rintro o ⟨⟩
    refine ⟨b', f, h', h'.filled, ?_, ?_⟩
    · show 1 ≤ B.toSize _
      rw [hlen]
      omega
    · show f + B.toSize _ ≤ b'.len
      rw [hlen]
      omega

/-- `uv_stream_msg_alloc` with a buffer that begins with a length. -/
theorem Holds.offer_of_size (h : s.Holds b f) (hcb : cb.Bounded)
    (hdec : msgDecoder.decide (b.base.take f) = none) (hh : Honest (b.base.take f)) (hf : 4 ≤ f)
    {size : ℤ} {n : ℕ} (hsize : msgSizeAt B b 0 = some size) (hentire : toInt (size + 4) = n)
    (hn : n < 2 ^ 31) (hwait : f < n) :
    ∃ t r, s.offer B cb b = some (t, r) ∧ Offers s t r ∧ (cb.Generous → r ≠ none) := by
  have hmod := two_pow_le_modulus B.sizeT
  have hf' : 4 ≤ s.filled := by rw [h.filled]; omega
  have htoSize : B.toSize (n : ℤ) = n := toSize_natCast (by omega)
  unfold UvMsg.offer
  rw [if_pos hf']
  simp only [hsize, hentire, htoSize, Option.bind_eq_bind, Option.bind_some]
  by_cases hgrow : s.allocSize < n
  · rw [if_pos hgrow]
    rcases h.realloc (B := B) hcb hn hwait.le with ⟨hr, hg⟩ | ⟨t, b', hr, ht, hge, hkeep⟩
    · rw [hr]
      exact ⟨_, none, rfl, ⟨(Inv.holds b f h hdec hh).keepAllocs _, rfl, nofun⟩,
        fun hg' => absurd hg' hg⟩
    · rw [hr]
      exact ⟨t, _, rfl, h.offers ht hdec hh hkeep rfl hwait hge, fun _ => nofun⟩
  · rw [if_neg hgrow]
    rw [h.size] at hgrow
    exact ⟨s, _, rfl, h.offers h hdec hh rfl rfl hwait (by omega), fun _ => nofun⟩

/-- `uv_stream_msg_alloc` with a buffer that ends inside a length. -/
theorem Holds.offer_of_lt (h : s.Holds b f) (hcb : cb.Bounded)
    (hdec : msgDecoder.decide (b.base.take f) = none) (hh : Honest (b.base.take f)) (hf : f < 4) :
    ∃ t r, s.offer B cb b = some (t, r) ∧ Offers s t r ∧ (cb.Generous → r ≠ none) := by
  have hsuggested : suggestedSize = 65536 := rfl
  have hf' : ¬ 4 ≤ s.filled := by rw [h.filled]; omega
  unfold UvMsg.offer
  rw [if_neg hf']
  simp only [Option.bind_eq_bind]
  by_cases hgrow : s.allocSize < 4
  · rw [if_pos hgrow]
    rcases h.realloc (B := B) hcb (n := suggestedSize) (by omega) (by omega) with
      ⟨hr, hg⟩ | ⟨t, b', hr, ht, hge, hkeep⟩
    · rw [hr]
      exact ⟨_, none, rfl, ⟨(Inv.holds b f h hdec hh).keepAllocs _, rfl, nofun⟩,
        fun hg' => absurd hg' hg⟩
    · rw [hr]
      exact ⟨t, _, rfl, h.offers ht hdec hh hkeep ht.size (by omega) le_rfl, fun _ => nofun⟩
  · rw [if_neg hgrow]
    rw [h.size] at hgrow
    exact ⟨s, _, rfl, h.offers h hdec hh rfl h.size (by omega) le_rfl, fun _ => nofun⟩

/-- `uv_stream_msg_alloc` with a buffer. -/
theorem Holds.offer (h : s.Holds b f) (hcb : cb.Bounded)
    (hdec : msgDecoder.decide (b.base.take f) = none) (hh : Honest (b.base.take f)) :
    ∃ t r, s.offer B cb b = some (t, r) ∧ Offers s t r ∧ (cb.Generous → r ≠ none) := by
  have hfits := h.fits
  have hlen : (b.base.take f).length = f := by
    rw [List.length_take]
    exact min_eq_left hfits
  rcases lt_or_ge f 4 with hf | hf
  · exact h.offer_of_lt hcb hdec hh hf
  · have hwait := LengthPrefix.decide_eq_none.1 hdec
    have hsmall := hh (by omega)
    have hsize := msgSizeAt_eq (B := B) (b := b) (p := 0) (f := f) (by omega) hf
    rw [slice_zero] at hsize
    exact h.offer_of_size hcb hdec hh hf hsize (toInt_honest hsmall).2 (by omega) (by omega)

/-- **`uv_stream_msg_alloc`** keeps the bytes and offers a region behind them. -/
theorem Inv.alloc (h : s.Inv) (hcb : cb.Bounded) :
    ∃ t r, s.alloc B cb = some (t, r) ∧ Offers s t r ∧ (cb.Generous → r ≠ none) := by
  cases h with
  | holds b f h hdec hh =>
    have hfirst : s.firstAlloc cb = s := by rw [firstAlloc, h.buf]
    simp only [UvMsg.alloc, hfirst, h.buf]
    exact h.offer hcb hdec hh
  | released h =>
    have hsuggested : suggestedSize < 2 ^ 31 := by decide
    obtain ⟨t, ht⟩ : ∃ t, s.firstAlloc cb = t := ⟨_, rfl⟩
    cases hans : cb s.allocs suggestedSize with
    | none =>
      have hfirst : t = { s with allocs := s.allocs + 1 } := by
        rw [← ht, firstAlloc, h.buf]
        simp only [hans]
      have hreleased : t.Released := by
        rw [hfirst]
        exact ⟨h.buf, h.size, h.filled⟩
      simp only [UvMsg.alloc, ht, hreleased.buf]
      refine ⟨t, none, rfl, ⟨.released hreleased, ?_, nofun⟩, fun hg => ?_⟩
      · rw [hreleased.pending, h.pending]
      · obtain ⟨b, hb, -⟩ := hg s.allocs suggestedSize hsuggested
        rw [hans] at hb
        cases hb
    | some b =>
      have hsmall := hcb s.allocs suggestedSize b hsuggested hans
      have hfirst : t = { s with
          allocs := s.allocs + 1, buf := some b, allocSize := toInt b.len } := by
        rw [← ht, firstAlloc, h.buf]
        simp only [hans]
      have hsize : toInt (b.len : ℤ) = b.len := toInt_eq (by omega) (by omega)
      have hholds : t.Holds b 0 :=
        ⟨by rw [hfirst], by simp only [hfirst, hsize], by rw [hfirst]; exact h.filled, Nat.zero_le _,
          hsmall⟩
      simp only [UvMsg.alloc, ht, hholds.buf]
      obtain ⟨u, r, hoffer, hoffers, hg⟩ := hholds.offer (B := B) hcb
        (by rw [List.take_zero]; exact decide_msgDecoder_nil)
        (fun hle => by rw [List.take_zero] at hle; exact absurd hle (by decide))
      refine ⟨u, r, hoffer, ⟨hoffers.inv, ?_, hoffers.region⟩, hg⟩
      rw [hoffers.pending, hholds.pending, h.pending, List.take_zero]

/-- libuv writes behind the bytes of the buffer. -/
theorem Holds.receive (h : s.Holds b f) {o : StreamBuf} (ho : o.base = f) {data : List Byte}
    (hfit : f + data.length ≤ b.len) :
    s.receive o data = some { s with buf := some ⟨overwrite b.base f data⟩ } ∧
      (overwrite b.base f data).length = b.len ∧
      (overwrite b.base f data).take (f + data.length) = b.base.take f ++ data := by
  refine ⟨?_, length_overwrite hfit, take_overwrite h.fits rfl⟩
  simp only [UvMsg.receive, h.buf, ho, Option.bind_eq_bind, Option.bind_some, Int.toNat_natCast,
    UvBuf.store_eq hfit]
  rw [if_pos (by omega)]

/-- The bytes behind the last complete message are moved to the front, or the buffer is released. -/
theorem Holds.afterLoop (h : s.Holds b f) {p g : ℕ} (hpg : p + g ≤ f) :
    ∃ t, s.afterLoop b ⟨p, g⟩ = some t ∧ t.pending = slice b.base p g ∧
      (t.Released ∨ ∃ b', t.Holds b' g) := by
  have hfits := h.fits
  have hsmall := h.small
  have hlen : (slice b.base p g).length = g := length_slice (by unfold UvBuf.len at hfits; omega)
  unfold UvMsg.afterLoop
  dsimp only
  split_ifs with hmove hzero
  · have hload : load b.base b.len p g = some (slice b.base p g) := load_eq (by omega) le_rfl
    have hstore : b.store 0 (slice b.base p g) = some ⟨overwrite b.base 0 (slice b.base p g)⟩ :=
      UvBuf.store_eq (by omega)
    have hlen' : (UvBuf.mk (overwrite b.base 0 (slice b.base p g))).len = b.len :=
      UvBuf.len_overwrite (by omega)
    have hholds : ({ s with
        filled := (g : ℤ), buf := some ⟨overwrite b.base 0 (slice b.base p g)⟩ } : UvMsg).Holds
          ⟨overwrite b.base 0 (slice b.base p g)⟩ g :=
      ⟨rfl, by rw [hlen']; exact h.size, rfl, by omega, by omega⟩
    refine ⟨_, ?_, ?_, .inr ⟨_, hholds⟩⟩
    · simp only [Int.toNat_natCast, hload, hstore, Option.bind_eq_bind, Option.bind_some]
    · rw [hholds.pending]
      exact overwrite_zero_take hlen.symm
  · obtain rfl : g = 0 := by exact_mod_cast hzero
    refine ⟨_, rfl, ?_, .inl ⟨rfl, rfl, rfl⟩⟩
    rw [slice_nil_of_zero]
    rfl
  · have hp : p = 0 := by
      have hg : g ≠ 0 := fun hg => hzero (by rw [hg]; rfl)
      by_contra hp
      exact hmove ⟨by omega, by omega⟩
    subst hp
    have hholds : ({ s with filled := (g : ℤ) } : UvMsg).Holds b g :=
      ⟨h.buf, h.size, rfl, by omega, hsmall⟩
    exact ⟨_, rfl, by rw [hholds.pending, slice_zero], .inr ⟨b, hholds⟩⟩

/-- **`uv_stream_msg_read`** delivers the messages that are complete, and keeps the rest. -/
theorem Holds.read (h : s.Holds b f) {n : ℕ} (hn : 0 < n) (hfit : f + n ≤ b.len)
    (hh : msgDecoder.Everywhere Honest (b.base.take (f + n))) :
    ∃ t, s.read B n = .done t ((msgDecoder.run (b.base.take (f + n))).1.map .message) ∧ t.Inv ∧
      t.pending = (msgDecoder.run (b.base.take (f + n))).2 := by
  have hsmall := h.small
  rw [← slice_zero] at hh ⊢
  obtain ⟨p, g, calls, hloop, hpg, hcalls, hrest⟩ :=
    readLoop_spec (B := B) hsmall (f + n + 1) (p := 0) (f := f + n) (by omega) (by omega) hh
  have hfilled : toInt (s.filled + n) = (f + n : ℕ) := by
    rw [h.filled, toInt_eq (by omega) (by omega)]
    omega
  have hholds : ({ s with filled := ((f + n : ℕ) : ℤ) } : UvMsg).Holds b (f + n) :=
    ⟨h.buf, h.size, rfl, hfit, hsmall⟩
  obtain ⟨t, hafter, hpending, ht⟩ := hholds.afterLoop (p := p) (g := g) (by omega)
  have hdec := Decoder.decide_run (D := msgDecoder) (slice b.base 0 (f + n))
  have hhonest := hh _ _ (Decoder.steps_run _)
  rw [← hrest, ← hpending] at hdec hhonest
  refine ⟨t, ?_, ?_, hpending.trans hrest⟩
  · rw [← hcalls]
    unfold UvMsg.read
    rw [if_neg (by omega), if_neg (by omega)]
    simp only [hfilled, h.buf, Option.getD_some, Int.toNat_natCast]
    rw [Nat.cast_zero] at hloop
    simp only [hloop]
    rw [← h.buf] at *
    simp only [hafter]
  · rcases ht with ht | ⟨b', ht⟩
    · exact .released ht
    · rw [ht.pending] at hdec hhonest
      exact .holds b' g ht hdec hhonest

end UvMsg

end SimpleUv
