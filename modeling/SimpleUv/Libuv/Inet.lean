import SimpleUv.Machine.Build
import Mathlib.Data.Nat.Digits.Defs

/-!
# Dotted quads: `inet_ntop4` and `inet_pton4`

A C string is the list of its characters in front of the terminator. `inet_pton4` goes through the
string once and keeps the octet it is reading in place; `Pton4` are its variables, and the array `tmp` is
given by the bytes in front of the pointer `tp` and the byte it points to, since the bytes behind are not
initialised. What the two functions write and read are the same strings (`inetPton4_eq_ok_iff`).
-/

namespace SimpleUv.Libuv

/-- The errors of `inet.c`, and `undefined` for what the language leaves undefined: a store outside of an
array, a load of a byte that was never written. -/
inductive Failure
  | EINVAL
  | ENOSPC
  | EAFNOSUPPORT
  | undefined
  deriving DecidableEq

/-- `UV__INET_ADDRSTRLEN`. -/
def uvInetAddrstrlen : ℕ := 16

/-- `strchr`, as the index of the character in the string. -/
def strchr (s : List Char) (ch : Char) : Option ℕ := s.idxOf? ch

/-- `sprintf` with the format `%u`. -/
def formatU (b : Byte) : List Char := Nat.toDigits 10 b.toNat

/-- The characters `"%u.%u.%u.%u"` of `inet_ntop4`. -/
def formatQuad (src : List Byte) : List Char :=
  formatU (src.getD 0 0) ++ '.' :: (formatU (src.getD 1 0) ++ '.' :: (formatU (src.getD 2 0) ++
    '.' :: formatU (src.getD 3 0)))

/-- `inet_ntop4`: the characters written to `dst`. `snprintf` returns the length `l` of what it would write,
and writes as much of it as fits in `tmp`. -/
def inetNtop4 (src : List Byte) (size : ℕ) : Except Failure (List Char) :=
  let tmp := (formatQuad src).take (uvInetAddrstrlen - 1)
  let l := (formatQuad src).length
  if l ≤ 0 ∨ l ≥ size then .error .ENOSPC else .ok (tmp.take (size - 1))

/-- The variables of `inet_pton4`. -/
structure Pton4 where
  /-- The bytes of `tmp` in front of `tp`. -/
  before : List Byte
  /-- `*tp`. -/
  cur : Byte
  sawDigit : Bool
  octets : ℕ

namespace Pton4

/-- `digits`. -/
def digits : List Char := ['0', '1', '2', '3', '4', '5', '6', '7', '8', '9']

/-- The variables in front of the loop. -/
def start : Pton4 := ⟨[], 0, false, 0⟩

/-- One turn of the loop. -/
def step (s : Pton4) (ch : Char) : Except Failure Pton4 :=
  match strchr digits ch with
  | some d =>
    let nw := s.cur.toNat * 10 + d
    if s.sawDigit = true ∧ s.cur = 0 then .error .EINVAL
    else if nw > 255 then .error .EINVAL
    else if s.sawDigit = false then
      if s.octets + 1 > 4 then .error .EINVAL
      else .ok ⟨s.before, .ofNat 8 nw, true, s.octets + 1⟩
    else .ok ⟨s.before, .ofNat 8 nw, s.sawDigit, s.octets⟩
  | none =>
    if ch = '.' ∧ s.sawDigit = true then
      if s.octets = 4 then .error .EINVAL
      else if s.before.length + 1 < 4 then .ok ⟨s.before ++ [s.cur], 0, false, s.octets⟩
      else .error .undefined
    else .error .EINVAL

/-- What follows the loop: the bytes of `tmp` that are copied to `dst`. -/
def finish (s : Pton4) : Except Failure (List Byte) :=
  if s.octets < 4 then .error .EINVAL
  else if s.before.length + 1 = 4 then .ok (s.before ++ [s.cur])
  else .error .undefined

end Pton4

/-- `inet_pton4`: the bytes written to `dst`. -/
def inetPton4 (src : List Char) : Except Failure (List Byte) := do
  let s ← src.foldlM Pton4.step Pton4.start
  s.finish

theorem strchr_eq_some_iff {s : List Char} (hs : s.Nodup) {ch : Char} {i : ℕ} :
    strchr s ch = some i ↔ s[i]? = some ch := by
  rw [strchr, List.idxOf?_eq_some_iff, List.getElem?_eq_some_iff]
  refine exists_congr fun hi => ⟨fun h => h.1, fun h => ⟨h, fun j hji hj => ?_⟩⟩
  exact hji.ne (hs.getElem_inj_iff.1 (hj.trans h.symm))

theorem strchr_digits {ch : Char} {d : ℕ} :
    strchr Pton4.digits ch = some d ↔ d < 10 ∧ ch = d.digitChar := by
  rw [strchr_eq_some_iff (by decide)]
  by_cases hd : d < 10
  · have h : ∀ e < 10, Pton4.digits[e]? = some e.digitChar := by decide
    rw [h d hd, Option.some_inj]
    exact ⟨fun h => ⟨hd, h.symm⟩, fun h => h.2.symm⟩
  · have hnone : Pton4.digits[d]? = none := List.getElem?_eq_none (Nat.le_of_not_lt hd)
    rw [hnone]
    exact ⟨fun h => absurd h.symm (Option.some_ne_none ch), fun h => absurd h.1 hd⟩

theorem length_formatU (b : Byte) : (formatU b).length ≤ 3 := by
  have hlt : b.toNat < 10 ^ 3 := b.isLt.trans (by norm_num)
  exact (Nat.length_toDigits_le_iff (by norm_num) (by norm_num)).2 hlt

theorem length_formatQuad (src : List Byte) :
    0 < (formatQuad src).length ∧ (formatQuad src).length < uvInetAddrstrlen := by
  have h := fun i => length_formatU (src.getD i 0)
  have h₀ := h 0
  have h₁ := h 1
  have h₂ := h 2
  have h₃ := h 3
  simp only [formatQuad, List.length_append, List.length_cons, uvInetAddrstrlen]
  omega

/-- No character of the quad is lost in `tmp` or `dst`. -/
theorem inetNtop4_eq (src : List Byte) (size : ℕ) : inetNtop4 src size =
    if (formatQuad src).length < size then .ok (formatQuad src) else .error .ENOSPC := by
  obtain ⟨hpos, hlt⟩ := length_formatQuad src
  by_cases hsize : (formatQuad src).length < size
  · rw [inetNtop4, if_neg (by omega), if_pos hsize, List.take_take, List.take_of_length_le (by omega)]
  · rw [inetNtop4, if_pos (by omega), if_neg hsize]

namespace Pton4

/-- The characters that lead to the state `s`. -/
def written (s : Pton4) : List Char :=
  (s.before.flatMap fun b => formatU b ++ ['.']) ++ if s.sawDigit then formatU s.cur else []

/-- What holds of the variables in the loop. -/
structure Valid (s : Pton4) : Prop where
  octets : s.octets = s.before.length + s.sawDigit.toNat
  length : s.before.length ≤ 3
  cur : s.sawDigit = false → s.cur = 0

theorem valid_start : start.Valid := ⟨rfl, by decide, fun _ => rfl⟩

theorem formatU_ofNat {n : ℕ} (hn : n ≤ 255) : formatU (.ofNat 8 n) = Nat.toDigits 10 n := by
  rw [formatU, BitVec.toNat_ofNat, Nat.mod_eq_of_lt (by omega)]

/-- A turn of the loop has the state stand for one more character, or it finds the string is no address. -/
theorem step_spec {s : Pton4} (hs : s.Valid) (ch : Char) :
    s.step ch = .error .EINVAL ∨
      ∃ t, s.step ch = .ok t ∧ t.Valid ∧ t.written = s.written ++ [ch] := by
  obtain ⟨before, cur, sawDigit, octets⟩ := s
  obtain ⟨hoct, hlen, hcur⟩ := hs
  simp only at hoct hlen hcur
  unfold step
  cases hd : strchr digits ch with
  | some d =>
    obtain ⟨hd10, rfl⟩ := strchr_digits.1 hd
    dsimp only
    split_ifs with hzero hbig hsaw hfour
    · exact .inl rfl
    · exact .inl rfl
    · exact .inl rfl
    · -- The first digit of an octet.
      obtain rfl := hcur hsaw
      subst hsaw
      refine .inr ⟨_, rfl, ⟨by rw [hoct]; rfl, hlen, fun h => by cases h⟩, ?_⟩
      have hval : (0 : Byte).toNat * 10 + d = d := by simp
      simp only [written, Bool.false_eq_true, if_false, if_true, List.append_nil]
      rw [hval, formatU_ofNat (by omega), Nat.toDigits_of_lt_base hd10]
    · -- A digit behind others, the first of which is not a zero.
      rw [Bool.not_eq_false] at hsaw
      subst hsaw
      refine .inr ⟨_, rfl, ⟨hoct, hlen, fun h => by cases h⟩, ?_⟩
      have hpos : 0 < cur.toNat := by
        refine Nat.pos_of_ne_zero fun h => hzero ⟨rfl, ?_⟩
        exact BitVec.eq_of_toNat_eq h
      have happ := Nat.toDigits_append_toDigits (by norm_num) hpos hd10
      rw [Nat.toDigits_of_lt_base hd10, Nat.mul_comm] at happ
      simp only [written, if_true]
      rw [formatU_ofNat (Nat.le_of_not_lt hbig), ← happ, formatU, List.append_assoc]
  | none =>
    dsimp only
    split_ifs with hdot hfour hroom
    · exact .inl rfl
    · obtain ⟨rfl, hsaw⟩ := hdot
      subst hsaw
      refine .inr ⟨_, rfl, ⟨?_, by simpa using Nat.le_of_lt_succ hroom, fun _ => rfl⟩, ?_⟩
      · rw [hoct, List.length_append]
        rfl
      · simp only [written, if_true, Bool.false_eq_true, if_false, List.append_nil,
          List.flatMap_append, List.flatMap_singleton, List.append_assoc]
    · obtain ⟨rfl, rfl⟩ := hdot
      rw [Bool.toNat_true] at hoct
      omega
    · exact .inl rfl

theorem foldlM_spec {s : Pton4} (hs : s.Valid) (src : List Char) :
    src.foldlM step s = .error .EINVAL ∨
      ∃ t, src.foldlM step s = .ok t ∧ t.Valid ∧ t.written = s.written ++ src := by
  induction src generalizing s with
  | nil => exact .inr ⟨s, rfl, hs, (List.append_nil _).symm⟩
  | cons ch src ih =>
    rw [List.foldlM_cons]
    rcases step_spec hs ch with h | ⟨t, h, ht, hw⟩
    · exact .inl (by rw [h]; rfl)
    · rw [h]
      rcases ih ht with h | ⟨u, h, hu, hwu⟩
      · exact .inl h
      · exact .inr ⟨u, h, hu, by rw [hwu, hw, List.append_assoc, List.singleton_append]⟩

theorem finish_spec {s : Pton4} (hs : s.Valid) :
    s.finish = .error .EINVAL ∨
      ∃ a, s.finish = .ok a ∧ a.length = 4 ∧ s.written = formatQuad a := by
  obtain ⟨before, cur, sawDigit, octets⟩ := s
  obtain ⟨hoct, hlen, -⟩ := hs
  simp only at hoct hlen
  unfold finish
  split_ifs with hfew hfour
  · exact .inl rfl
  · simp only at hfew hfour
    cases sawDigit with
    | false =>
      rw [Bool.toNat_false] at hoct
      omega
    | true =>
      refine .inr ⟨_, rfl, by simpa using hfour, ?_⟩
      obtain ⟨b₀, b₁, b₂, rfl⟩ := List.length_eq_three.1 (Nat.succ.inj hfour)
      simp [written, formatQuad]
  · cases sawDigit <;> simp only [Bool.toNat_true, Bool.toNat_false] at * <;> omega

/-- The digits of an octet are read. -/
theorem foldlM_toDigits {before : List Byte} (hb : before.length ≤ 3) {n : ℕ} (hn : n ≤ 255) :
    (Nat.toDigits 10 n).foldlM step ⟨before, 0, false, before.length⟩ =
      .ok ⟨before, .ofNat 8 n, true, before.length + 1⟩ := by
  induction n using Nat.strong_induction_on with
  | h n ih =>
    by_cases hlt : n < 10
    · have hstr := strchr_digits.2 ⟨hlt, rfl⟩
      rw [Nat.toDigits_of_lt_base hlt, List.foldlM_cons, step, hstr]
      have hval : (0 : Byte).toNat * 10 + n = n := by simp
      simp only [Bool.false_eq_true, false_and, if_false, if_true, hval]
      rw [if_neg (by omega), if_neg (by omega)]
      rfl
    · have hmod : n % 10 < 10 := Nat.mod_lt n (by norm_num)
      have hstr := strchr_digits.2 ⟨hmod, rfl⟩
      have hval : (BitVec.ofNat 8 (n / 10)).toNat = n / 10 := by
        rw [BitVec.toNat_ofNat, Nat.mod_eq_of_lt (by omega)]
      have hne : BitVec.ofNat 8 (n / 10) ≠ 0 := by
        intro h
        rw [h] at hval
        simp only [BitVec.ofNat_eq_ofNat, BitVec.toNat_ofNat, Nat.zero_mod] at hval
        omega
      have hsum : n / 10 * 10 + n % 10 = n := Nat.div_add_mod' n 10
      rw [Nat.toDigits_of_base_le (by norm_num) (Nat.le_of_not_lt hlt), List.foldlM_append,
        ih (n / 10) (by omega) (by omega)]
      show [(n % 10).digitChar].foldlM step _ = _
      rw [List.foldlM_cons, step, hstr]
      simp only [hne, and_false, if_false, hval, hsum, Bool.true_eq_false]
      rw [if_neg (by omega)]
      rfl

theorem foldlM_formatU (before : List Byte) (hb : before.length ≤ 3) (b : Byte) (rest : List Char) :
    (formatU b ++ rest).foldlM step ⟨before, 0, false, before.length⟩ =
      rest.foldlM step ⟨before, b, true, before.length + 1⟩ := by
  rw [List.foldlM_append, formatU, foldlM_toDigits hb (Nat.le_of_lt_succ b.isLt), BitVec.ofNat_toNat,
    BitVec.setWidth_eq]
  rfl

theorem foldlM_dot (before : List Byte) (hb : before.length ≤ 2) (b : Byte) (rest : List Char) :
    ('.' :: rest).foldlM step ⟨before, b, true, before.length + 1⟩ =
      rest.foldlM step ⟨before ++ [b], 0, false, (before ++ [b]).length⟩ := by
  have hstr : strchr digits '.' = none := by decide
  rw [List.foldlM_cons, step, hstr, List.length_append]
  simp only [true_and, if_true]
  rw [if_neg (by omega), if_pos (by omega)]
  rfl

end Pton4

theorem inetPton4_formatQuad {a : List Byte} (ha : a.length = 4) : inetPton4 (formatQuad a) = .ok a := by
  obtain ⟨b₀, l, rfl⟩ := List.exists_cons_of_length_eq_add_one ha
  obtain ⟨b₁, b₂, b₃, rfl⟩ := List.length_eq_three.1 (Nat.succ.inj ha)
  have hlast : formatU b₃ = formatU b₃ ++ [] := (List.append_nil _).symm
  have h : (formatQuad [b₀, b₁, b₂, b₃]).foldlM Pton4.step Pton4.start =
      .ok ⟨[b₀, b₁, b₂], b₃, true, 4⟩ := by
    simp only [formatQuad, List.getD_cons_zero, List.getD_cons_succ]
    rw [hlast]
    exact (Pton4.foldlM_formatU [] (Nat.zero_le 3) b₀ _).trans <|
      (Pton4.foldlM_dot [] (Nat.zero_le 2) b₀ _).trans <|
      (Pton4.foldlM_formatU [b₀] (Nat.le_add_left 1 2) b₁ _).trans <|
      (Pton4.foldlM_dot [b₀] (Nat.le_add_left 1 1) b₁ _).trans <|
      (Pton4.foldlM_formatU [b₀, b₁] (Nat.le_succ 2) b₂ _).trans <|
      (Pton4.foldlM_dot [b₀, b₁] (Nat.le_refl 2) b₂ _).trans
        (Pton4.foldlM_formatU [b₀, b₁, b₂] (Nat.le_refl 3) b₃ _)
  rw [inetPton4, h]
  rfl

/-- The outcomes of `inet_pton4`: it finds the string is no address, or the string is what `inet_ntop4`
writes for the address read. -/
theorem inetPton4_spec (src : List Char) :
    inetPton4 src = .error .EINVAL ∨
      ∃ a, inetPton4 src = .ok a ∧ a.length = 4 ∧ src = formatQuad a := by
  rw [inetPton4]
  rcases Pton4.foldlM_spec Pton4.valid_start src with h | ⟨s, h, hs, hw⟩
  · exact .inl (by rw [h]; rfl)
  · rw [h]
    rcases Pton4.finish_spec hs with h | ⟨a, h, ha, hwa⟩
    · exact .inl h
    · exact .inr ⟨a, h, ha, by rw [← hwa, hw]; rfl⟩

/-- **`inet_pton4` reads exactly what `inet_ntop4` writes**: a string is read as the four bytes `a` when
it is the text of `a`, and every other string is refused. -/
theorem inetPton4_eq_ok_iff (src : List Char) :
    (∀ a, inetPton4 src = .ok a ↔ a.length = 4 ∧ inetNtop4 a uvInetAddrstrlen = .ok src) ∧
      ∀ e, inetPton4 src = .error e → e = .EINVAL := by
  refine ⟨fun a => ⟨fun h => ?_, fun ⟨ha, h⟩ => ?_⟩, fun e h => ?_⟩
  · rcases inetPton4_spec src with h' | ⟨a', h', ha, rfl⟩
    · rw [h'] at h
      cases h
    · obtain rfl := Except.ok.inj (h.symm.trans h')
      rw [inetNtop4_eq, if_pos (length_formatQuad a).2]
      exact ⟨ha, rfl⟩
  · rw [inetNtop4_eq, if_pos (length_formatQuad a).2] at h
    obtain rfl := Except.ok.inj h
    exact inetPton4_formatQuad ha
  · rcases inetPton4_spec src with h' | ⟨a', h', -⟩ <;> rw [h'] at h
    · exact (Except.error.inj h).symm
    · cases h

end SimpleUv.Libuv
