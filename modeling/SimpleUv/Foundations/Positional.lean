import Mathlib.Data.Nat.Digits.Defs
import Mathlib.Tactic.NormNum

/-!
# Numbers as strings of bytes

A string of bytes is a number in base 256, and a number has a fixed number of bytes. `ofBytes` and
`toBytes` have the least significant byte first; the other order is the reversed string. Strings of a
given length and numbers below the corresponding power of 256 are the same (`ofBytes_toBytes`,
`toBytes_ofBytes`).
-/

namespace Foundations

/-- The number with the given bytes, the least significant one first. -/
def ofBytes (bs : List (BitVec 8)) : ℕ := Nat.ofDigits 256 (bs.map BitVec.toNat)

/-- The `k` least significant bytes of a number, the least significant one first. -/
def toBytes : ℕ → ℕ → List (BitVec 8)
  | 0, _ => []
  | k + 1, n => BitVec.ofNat 8 n :: toBytes k (n / 256)

@[simp] theorem ofBytes_nil : ofBytes [] = 0 := rfl

@[simp] theorem ofBytes_cons (b : BitVec 8) (bs : List (BitVec 8)) :
    ofBytes (b :: bs) = b.toNat + 256 * ofBytes bs := by
  simp only [ofBytes, List.map_cons, Nat.ofDigits_cons]

@[simp] theorem toBytes_zero (n : ℕ) : toBytes 0 n = [] := rfl

@[simp] theorem toBytes_succ (k n : ℕ) :
    toBytes (k + 1) n = BitVec.ofNat 8 n :: toBytes k (n / 256) := rfl

@[simp] theorem length_toBytes (k n : ℕ) : (toBytes k n).length = k := by
  induction k generalizing n with
  | zero => rfl
  | succ k ih => rw [toBytes_succ, List.length_cons, ih]

theorem ofBytes_append (bs cs : List (BitVec 8)) :
    ofBytes (bs ++ cs) = ofBytes bs + 256 ^ bs.length * ofBytes cs := by
  rw [ofBytes, List.map_append, Nat.ofDigits_append, List.length_map, ofBytes, ofBytes]

theorem toBytes_add (j k n : ℕ) : toBytes (j + k) n = toBytes j n ++ toBytes k (n / 256 ^ j) := by
  induction j generalizing n with
  | zero => rw [Nat.zero_add, toBytes_zero, pow_zero, Nat.div_one, List.nil_append]
  | succ j ih =>
    rw [Nat.add_right_comm, toBytes_succ, toBytes_succ, List.cons_append, ih,
      Nat.div_div_eq_div_mul, pow_succ']

/-- The bytes of a word are stretches of its bits. -/
theorem toBytes_toNat {w : ℕ} (k : ℕ) (n : BitVec w) :
    toBytes k n.toNat = (List.range k).map fun i => n.extractLsb' (8 * i) 8 := by
  have key : ∀ k m, toBytes k m = (List.range k).map fun i => BitVec.ofNat 8 (m / 256 ^ i) := by
    intro k
    induction k with
    | zero => exact fun _ => rfl
    | succ k ih =>
      intro m
      rw [toBytes_succ, ih, List.range_succ_eq_map, List.map_cons, List.map_map, pow_zero,
        Nat.div_one]
      congr 1
      refine List.map_congr_left fun i _ => ?_
      rw [Function.comp_apply, Nat.div_div_eq_div_mul, pow_succ']
  rw [key]
  refine List.map_congr_left fun i _ => ?_
  apply BitVec.eq_of_toNat_eq
  rw [BitVec.toNat_ofNat, BitVec.extractLsb'_toNat, Nat.shiftRight_eq_div_pow, pow_mul]
  norm_num

theorem ofBytes_lt (bs : List (BitVec 8)) : ofBytes bs < 256 ^ bs.length := by
  have hlt : ∀ x ∈ bs.map BitVec.toNat, x < 256 := by
    intro x hx
    obtain ⟨b, -, rfl⟩ := List.mem_map.1 hx
    exact b.isLt
  have := Nat.ofDigits_lt_base_pow_length (by norm_num) hlt
  rwa [List.length_map] at this

/-- The bytes of a number give the number, up to what does not fit. -/
theorem ofBytes_toBytes (k n : ℕ) : ofBytes (toBytes k n) = n % 256 ^ k := by
  induction k generalizing n with
  | zero => rw [toBytes_zero, ofBytes_nil, pow_zero, Nat.mod_one]
  | succ k ih =>
    rw [toBytes_succ, ofBytes_cons, ih, BitVec.toNat_ofNat, pow_succ' 256 k, Nat.mod_mul]

theorem ofBytes_toBytes_of_lt {k n : ℕ} (h : n < 256 ^ k) : ofBytes (toBytes k n) = n := by
  rw [ofBytes_toBytes, Nat.mod_eq_of_lt h]

/-- A string consists of the bytes of its number. -/
theorem toBytes_ofBytes (bs : List (BitVec 8)) : toBytes bs.length (ofBytes bs) = bs := by
  induction bs with
  | nil => rfl
  | cons b bs ih =>
    have hb := b.isLt
    have hdiv : (b.toNat + 256 * ofBytes bs) / 256 = ofBytes bs := by omega
    have hmod : BitVec.ofNat 8 (b.toNat + 256 * ofBytes bs) = b := by
      apply BitVec.eq_of_toNat_eq
      rw [BitVec.toNat_ofNat]
      omega
    rw [List.length_cons, ofBytes_cons, toBytes_succ, hdiv, hmod, ih]

/-- The bytes of a number that are not taken do not matter. -/
theorem toBytes_mod (k n : ℕ) : toBytes k (n % 256 ^ k) = toBytes k n := by
  have := toBytes_ofBytes (toBytes k n)
  rwa [length_toBytes, ofBytes_toBytes] at this

end Foundations
