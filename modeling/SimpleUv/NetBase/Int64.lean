import SimpleUv.NetBase.Codec

/-!
# 64-bit integers as characters

`net_base.h`: `Phata::htonll`, which is also `Phata::ntohll`, and `Int64ToChar` and `CharToInt64`. The
encoder writes the bytes of the value in the memory of the host (`int64ToChar_eq`). The decoder makes
the upper half of the value with 64-bit shifts and the lower half with shifts of type `int`: a fifth
character from `0x80` on gives a negative `int`, whose conversion to `uint64_t` takes one from the upper
half (`charToInt64_eq`). The codec loses exactly the values with that bit set (`int64_roundTrip_iff`).
-/

namespace SimpleUv

open Foundations

/-- Reverse the eight bytes of a word. -/
def byteSwap64 (n : BitVec 64) : BitVec 64 :=
  n.extractLsb' 0 8 ++ n.extractLsb' 8 8 ++ n.extractLsb' 16 8 ++ n.extractLsb' 24 8 ++
    n.extractLsb' 32 8 ++ n.extractLsb' 40 8 ++ n.extractLsb' 48 8 ++ n.extractLsb' 56 8

/-- `Phata::htonll` with a built-in byte swap, which is also `Phata::ntohll`. -/
def htonll : ByteOrder → BitVec 64 → BitVec 64
  | .little, num => byteSwap64 num
  | .big, num => num

/-- `Phata::htonll` on a platform without a built-in byte swap. -/
def htonllPortable (o : ByteOrder) (num : BitVec 64) : BitVec 64 :=
  match o with
  | .little =>
    let retval := ((htonl o ((num &&& 0x00000000ffffffff#64).setWidth 32)).setWidth 64) <<< 32
    retval ||| (htonl o (((num &&& 0xffffffff00000000#64) >>> 32).setWidth 32)).setWidth 64
  | .big => num

/-- `Int64ToChar`: the eight characters written. -/
def int64ToChar (B : Build) (intnum : BitVec 64) : List Byte :=
  let networkByteorder := htonll B.order intnum
  [((networkByteorder &&& 0xff00000000000000#64) >>> 56).setWidth 8,
    ((networkByteorder &&& 0x00ff000000000000#64) >>> 48).setWidth 8,
    ((networkByteorder &&& 0x0000ff0000000000#64) >>> 40).setWidth 8,
    ((networkByteorder &&& 0x000000ff00000000#64) >>> 32).setWidth 8,
    ((networkByteorder &&& 0x00000000ff000000#64) >>> 24).setWidth 8,
    ((networkByteorder &&& 0x0000000000ff0000#64) >>> 16).setWidth 8,
    ((networkByteorder &&& 0x000000000000ff00#64) >>> 8).setWidth 8,
    (networkByteorder &&& 0x00000000000000ff#64).setWidth 8]

/-- A character promoted to `int`, shifted, and converted to `uint64_t`. -/
def shiftInt (c : Byte) (s : ℕ) : BitVec 64 := (c.setWidth 32 <<< s).signExtend 64

/-- `CharToInt64`. -/
def charToInt64 (B : Build) (charnum : List Byte) : BitVec 64 :=
  let intnum := ((charnum.getD 0 0).setWidth 64 <<< 56) + ((charnum.getD 1 0).setWidth 64 <<< 48) +
    ((charnum.getD 2 0).setWidth 64 <<< 40) + ((charnum.getD 3 0).setWidth 64 <<< 32) +
    shiftInt (charnum.getD 4 0) 24 + shiftInt (charnum.getD 5 0) 16 +
    shiftInt (charnum.getD 6 0) 8 + shiftInt (charnum.getD 7 0) 0
  htonll B.order intnum

/-! ## The byte order -/

theorem byteSwap64_toNat (n : BitVec 64) :
    (byteSwap64 n).toNat = ofBytes (toBytes 8 n.toNat).reverse := by
  rw [toBytes_toNat]
  show _ = ofBytes [n.extractLsb' 56 8, n.extractLsb' 48 8, n.extractLsb' 40 8, n.extractLsb' 32 8,
    n.extractLsb' 24 8, n.extractLsb' 16 8, n.extractLsb' 8 8, n.extractLsb' 0 8]
  simp only [byteSwap64, toNat_append_byte, ofBytes_cons, ofBytes_nil, mul_zero, add_zero]

theorem toBytes_byteSwap64 (n : BitVec 64) :
    toBytes 8 (byteSwap64 n).toNat = (toBytes 8 n.toNat).reverse := by
  have := toBytes_ofBytes (toBytes 8 n.toNat).reverse
  rwa [List.length_reverse, length_toBytes, ← byteSwap64_toNat] at this

/-- A word in network byte order. -/
theorem image_htonll (o : ByteOrder) (n : BitVec 64) :
    image o 8 (htonll o n).toNat = image .big 8 n.toNat := by
  cases o
  · exact toBytes_byteSwap64 n
  · rfl

/-- The two ways to convert agree. -/
theorem htonllPortable_eq (o : ByteOrder) (n : BitVec 64) : htonllPortable o n = htonll o n := by
  cases o with
  | big => rfl
  | little =>
    have hn := n.isLt
    have hlow : ((n &&& 0x00000000ffffffff#64).setWidth 32).toNat = n.toNat % 256 ^ 4 := by
      have := Nat.and_two_pow_sub_one_eq_mod n.toNat 32
      rw [BitVec.toNat_setWidth, BitVec.toNat_and]
      norm_num at this ⊢
      omega
    have hhigh : (((n &&& 0xffffffff00000000#64) >>> 32).setWidth 32).toNat = n.toNat / 256 ^ 4 := by
      have := Nat.and_two_pow_sub_one_eq_mod (n.toNat >>> 32) 32
      rw [BitVec.toNat_setWidth, BitVec.toNat_ushiftRight, BitVec.toNat_and, Nat.shiftRight_and_distrib]
      norm_num [Nat.shiftRight_eq_div_pow] at this ⊢
      omega
    have hsplit := toBytes_add 4 4 n.toNat
    have hlen : (toBytes 4 (n.toNat / 256 ^ 4)).reverse.length = 4 := by simp
    have hlt := (byteSwap ((n &&& 0x00000000ffffffff#64).setWidth 32)).isLt
    have hlt' := (byteSwap (((n &&& 0xffffffff00000000#64) >>> 32).setWidth 32)).isLt
    apply BitVec.eq_of_toNat_eq
    simp only [htonllPortable, htonll, htonl]
    rw [BitVec.toNat_or, BitVec.toNat_shiftLeft, BitVec.toNat_setWidth, BitVec.toNat_setWidth,
      Nat.mod_eq_of_lt (hlt.trans (by norm_num)), Nat.mod_eq_of_lt (hlt'.trans (by norm_num)),
      Nat.mod_eq_of_lt (by rw [Nat.shiftLeft_eq]; omega),
      ← Nat.shiftLeft_add_eq_or_of_lt hlt', Nat.shiftLeft_eq, byteSwap64_toNat, byteSwap_toNat,
      byteSwap_toNat, hlow, hhigh, hsplit, List.reverse_append, ofBytes_append, hlen, toBytes_mod]
    omega

/-! ## The characters -/

/-- **The characters written are the bytes of the value in the memory of the host.** -/
theorem int64ToChar_eq (B : Build) (n : BitVec 64) :
    int64ToChar B n = image B.order 8 n.toNat := by
  have key : ∀ m : BitVec 64, [((m &&& 0xff00000000000000#64) >>> 56).setWidth 8,
      ((m &&& 0x00ff000000000000#64) >>> 48).setWidth 8,
      ((m &&& 0x0000ff0000000000#64) >>> 40).setWidth 8,
      ((m &&& 0x000000ff00000000#64) >>> 32).setWidth 8,
      ((m &&& 0x00000000ff000000#64) >>> 24).setWidth 8,
      ((m &&& 0x0000000000ff0000#64) >>> 16).setWidth 8,
      ((m &&& 0x000000000000ff00#64) >>> 8).setWidth 8,
      (m &&& 0x00000000000000ff#64).setWidth 8] = image .big 8 m.toNat := by
    intro m
    have hmask := fun s h => mask_shift m s h
    rw [image, toBytes_toNat]
    exact congrArg₂ _ (hmask 56 (by omega)) (congrArg₂ _ (hmask 48 (by omega))
      (congrArg₂ _ (hmask 40 (by omega)) (congrArg₂ _ (hmask 32 (by omega))
      (congrArg₂ _ (hmask 24 (by omega)) (congrArg₂ _ (hmask 16 (by omega))
      (congrArg₂ _ (hmask 8 (by omega)) (congrArg₂ _ (hmask 0 (by omega)) rfl)))))))
  unfold int64ToChar
  rw [key]
  cases B.order
  · show (toBytes 8 (byteSwap64 n).toNat).reverse = toBytes 8 n.toNat
    rw [toBytes_byteSwap64, List.reverse_reverse]
  · rfl

/-- What the conversion of a negative `int` to `uint64_t` adds for the fifth character. -/
def carry (c : Byte) : ℕ := if c.msb then 2 ^ 64 - 2 ^ 32 else 0

theorem shiftInt_toNat (c : Byte) {s : ℕ} (h : s ≤ 24) :
    (shiftInt c s).toNat = c.toNat * 2 ^ s + if 2 ^ 31 ≤ c.toNat * 2 ^ s then 2 ^ 64 - 2 ^ 32 else 0 := by
  have hc := c.isLt
  have hs : 2 ^ s ≤ 2 ^ 24 := Nat.pow_le_pow_right (by norm_num) h
  have hlt : c.toNat * 2 ^ s < 2 ^ 32 := by nlinarith
  have hnat : (c.setWidth 32 <<< s).toNat = c.toNat * 2 ^ s := by
    rw [BitVec.toNat_shiftLeft, BitVec.toNat_setWidth, Nat.mod_eq_of_lt (hc.trans (by norm_num)),
      Nat.shiftLeft_eq, Nat.mod_eq_of_lt hlt]
  rw [shiftInt, BitVec.toNat_signExtend, BitVec.toNat_setWidth, hnat, BitVec.msb_eq_decide, hnat,
    Nat.mod_eq_of_lt (by omega)]
  simp

theorem shiftInt_toNat_of_lt (c : Byte) {s : ℕ} (h : s ≤ 16) :
    (shiftInt c s).toNat = c.toNat * 2 ^ s := by
  have hc := c.isLt
  have hs : 2 ^ s ≤ 2 ^ 16 := Nat.pow_le_pow_right (by norm_num) h
  have hlt : c.toNat * 2 ^ s < 2 ^ 31 := by nlinarith
  rw [shiftInt_toNat c (by omega), if_neg (by omega), Nat.add_zero]

theorem shiftInt_toNat_carry (c : Byte) : (shiftInt c 24).toNat = c.toNat * 2 ^ 24 + carry c := by
  rw [shiftInt_toNat c le_rfl, carry, BitVec.msb_eq_decide]
  congr 1
  simp only [decide_eq_true_eq]
  congr 1
  apply propext
  omega

/-- The sum of the eight shifted characters, up to the carry. -/
theorem charToInt64_cons (B : Build) (a b c d e f g h : Byte) :
    charToInt64 B [a, b, c, d, e, f, g, h] =
      htonll B.order (.ofNat 64 (word .big [a, b, c, d, e, f, g, h] + carry e)) := by
  have := a.isLt
  have := b.isLt
  have := c.isLt
  have := d.isLt
  have := e.isLt
  have := f.isLt
  have := g.isLt
  have := h.isLt
  simp only [charToInt64, List.getD_cons_zero, List.getD_cons_succ]
  refine congrArg (htonll B.order) (BitVec.eq_of_toNat_eq ?_)
  simp only [BitVec.toNat_add, BitVec.toNat_shiftLeft, BitVec.toNat_setWidth, BitVec.toNat_ofNat,
    Nat.shiftLeft_eq, word, List.reverse_cons, List.reverse_nil, List.nil_append,
    List.cons_append, ofBytes_cons, ofBytes_nil, shiftInt_toNat_carry,
    shiftInt_toNat_of_lt _ (show 16 ≤ 16 by omega), shiftInt_toNat_of_lt _ (show 8 ≤ 16 by omega),
    shiftInt_toNat_of_lt _ (show 0 ≤ 16 by omega)]
  omega

/-- **Encoding what is decoded** gives the characters whose number, the most significant one first, is
that of the decoded characters plus the carry. -/
theorem int64ToChar_charToInt64 (B : Build) {cs : List Byte} (hlen : cs.length = 8) :
    int64ToChar B (charToInt64 B cs) =
      image .big 8 ((word .big cs + carry (cs.getD 4 0)) % 2 ^ 64) := by
  obtain ⟨a, b, c, d, e, f, g, h, rfl⟩ : ∃ a b c d e f g h, cs = [a, b, c, d, e, f, g, h] := by
    match cs, hlen with
    | [a, b, c, d, e, f, g, h], _ => exact ⟨a, b, c, d, e, f, g, h, rfl⟩
  rw [charToInt64_cons, int64ToChar_eq, image_htonll, BitVec.toNat_ofNat]
  rfl

/-- The characters are reproduced exactly when there is no carry. -/
theorem int64ToChar_charToInt64_iff (B : Build) {cs : List Byte} (hlen : cs.length = 8) :
    int64ToChar B (charToInt64 B cs) = cs ↔ (cs.getD 4 0).msb = false := by
  have hlt := word_lt .big cs
  rw [hlen] at hlt
  norm_num at hlt
  have hself : image .big 8 (word .big cs) = cs := image_word .big hlen
  have hcarry : image .big 8 ((word .big cs + carry (cs.getD 4 0)) % 2 ^ 64) = cs ↔
      (word .big cs + carry (cs.getD 4 0)) % 2 ^ 64 = word .big cs := by
    conv_lhs => rhs; rw [← hself]
    exact image_inj .big (Nat.mod_lt _ (by norm_num)) (by omega)
  rw [int64ToChar_charToInt64 B hlen, hcarry, carry]
  cases (cs.getD 4 0).msb with
  | false => exact ⟨fun _ => rfl, fun _ => Nat.mod_eq_of_lt (by simpa using hlt)⟩
  | true =>
    refine ⟨fun h => ?_, nofun⟩
    rw [if_pos rfl] at h
    omega

example : int64ToChar zeroBuild (charToInt64 zeroBuild [0, 0, 0, 0, 1, 2, 3, 4]) =
    [0, 0, 0, 0, 1, 2, 3, 4] := by decide

/-- The bit of a value that becomes the top bit of the fifth character. -/
def carryBit : ByteOrder → ℕ
  | .little => 39
  | .big => 31

theorem msb_int64ToChar (B : Build) (n : BitVec 64) :
    ((int64ToChar B n).getD 4 0).msb = n.getLsbD (carryBit B.order) := by
  rw [int64ToChar_eq]
  cases B.order
  · rw [image, toBytes_toNat]
    show (n.extractLsb' 32 8).msb = n.getLsbD 39
    rw [BitVec.msb_eq_getLsbD_last, BitVec.getLsbD_extractLsb']
    rfl
  · rw [image, toBytes_toNat]
    show (n.extractLsb' 24 8).msb = n.getLsbD 31
    rw [BitVec.msb_eq_getLsbD_last, BitVec.getLsbD_extractLsb']
    rfl

theorem int64ToChar_inj (B : Build) {m n : BitVec 64} : int64ToChar B m = int64ToChar B n ↔ m = n := by
  rw [int64ToChar_eq, int64ToChar_eq, image_inj B.order m.isLt n.isLt]
  exact BitVec.toNat_inj

/-- **The 64-bit codec** returns a value, and reproduces eight characters, exactly when the fifth
character of the encoding is below `0x80`. -/
theorem int64_roundTrip_iff (B : Build) :
    (∀ n, charToInt64 B (int64ToChar B n) = n ↔ n.getLsbD (carryBit B.order) = false) ∧
      ∀ charnum, charnum.length = 8 →
        (int64ToChar B (charToInt64 B charnum) = charnum ↔ (charnum.getD 4 0).msb = false) := by
  refine ⟨fun n => ?_, fun charnum h => int64ToChar_charToInt64_iff B h⟩
  rw [← msb_int64ToChar, ← int64ToChar_charToInt64_iff B (by rfl), int64ToChar_inj]

/-- The fifth character of this value is `0x80` on a little-endian host. -/
theorem int64_not_roundTrip :
    charToInt64 zeroBuild (int64ToChar zeroBuild 0x8000000000#64) = 0x80ffffffff#64 ∧
      ¬ ((∀ n, charToInt64 zeroBuild (int64ToChar zeroBuild n) = n) ∧
        ∀ charnum, charnum.length = 8 →
          int64ToChar zeroBuild (charToInt64 zeroBuild charnum) = charnum) := by
  have hvalue : charToInt64 zeroBuild (int64ToChar zeroBuild 0x8000000000#64) = 0x80ffffffff#64 := by
    decide
  refine ⟨hvalue, fun ⟨h, _⟩ => ?_⟩
  rw [h] at hvalue
  exact absurd hvalue (by decide)

end SimpleUv
