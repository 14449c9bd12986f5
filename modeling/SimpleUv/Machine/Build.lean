import Mathlib.Data.Int.ModEq
import Mathlib.Data.Vector.Basic
import Mathlib.Tactic.NormNum

/-!
# Builds

What the code takes from its build and host: the width of `size_t` (4 bytes in the Win32 project,
8 bytes under the `-m64` Makefile), the byte order of the host, the MD5 function of the linked
OpenSSL, and the bytes `realloc` finds in memory it hands out. Unsigned `size_t` arithmetic wraps
modulo `2 ^ 32` or `2 ^ 64` (`toSize`); a conversion to `int` wraps to the 32-bit two's complement
range (`toInt`).
-/

namespace SimpleUv

/-- `unsigned char`. -/
abbrev Byte := BitVec 8

/-- `MD5_DIGEST_LENGTH` bytes. -/
abbrev Digest := List.Vector Byte 16

/-- The width of `size_t`. -/
inductive SizeT
  | b32
  | b64
  deriving DecidableEq, Repr

/-- `sizeof(size_t)`. -/
def SizeT.bytes : SizeT → ℕ
  | .b32 => 4
  | .b64 => 8

/-- The number of values of `size_t`. -/
def SizeT.modulus : SizeT → ℕ
  | .b32 => 2 ^ 32
  | .b64 => 2 ^ 64

/-- The byte order of the host. -/
inductive ByteOrder
  | little
  | big
  deriving DecidableEq, Repr

/-- A build of the program on a host. -/
structure Build where
  sizeT : SizeT
  order : ByteOrder
  md5 : List Byte → Digest
  junk : ℕ → Byte

namespace Build

variable (B : Build)

/-- Conversion to `size_t`: the value modulo the number of values of the type. -/
def toSize (x : ℤ) : ℕ := (x % (B.sizeT.modulus : ℤ)).toNat

/-- `NET_PACKAGE_HEADLEN`, that is `sizeof(NetPacket)`: four `size_t` fields and 18 bytes, packed. -/
def headLen : ℕ := 4 * B.sizeT.bytes + 18

end Build

/-- A 64-bit build on a little-endian host, on which everything left open is zero. -/
def zeroBuild : Build where
  sizeT := .b64
  order := .little
  md5 := fun _ => .replicate 16 0
  junk := fun _ => 0

/-- Conversion to `int`. -/
def toInt (x : ℤ) : ℤ := Int.bmod x (2 ^ 32)

/-- A signed `char`, promoted to `int`. -/
def charToInt (b : Byte) : ℤ := b.toInt

/-- `BUFFER_SIZE`. -/
def bufferSize : ℕ := 1024 * 10

/-- `MAXLISTSIZE`. -/
def maxListSize : ℕ := 20

/-! ## Arithmetic without wrap -/

section Arithmetic

variable {B : Build}

theorem modulus_pos (w : SizeT) : 0 < w.modulus := by cases w <;> simp [SizeT.modulus]

theorem two_pow_le_modulus (w : SizeT) : 2 ^ 32 ≤ w.modulus := by
  cases w <;> norm_num [SizeT.modulus]

theorem headLen_ge (B : Build) : 34 ≤ B.headLen := by
  unfold Build.headLen
  cases B.sizeT <;> simp [SizeT.bytes]

theorem headLen_le (B : Build) : B.headLen ≤ 50 := by
  unfold Build.headLen
  cases B.sizeT <;> simp [SizeT.bytes]

theorem bufferSize_eq : bufferSize = 10240 := rfl

/-- A value in the range of `size_t` is kept. -/
theorem toSize_eq {x : ℤ} {n : ℕ} (h : x = n) (hn : n < B.sizeT.modulus) : B.toSize x = n := by
  subst h
  unfold Build.toSize
  rw [Int.emod_eq_of_lt (by omega) (by omega), Int.toNat_natCast]

theorem toSize_natCast {n : ℕ} (hn : n < B.sizeT.modulus) : B.toSize n = n := toSize_eq rfl hn

/-- `size_t` arithmetic forgets multiples of the number of values. -/
theorem toSize_add_mul (x c : ℤ) : B.toSize (x + B.sizeT.modulus * c) = B.toSize x := by
  unfold Build.toSize
  rw [Int.add_mul_emod_self_left]

theorem exists_of_toSize {x : ℤ} {n : ℕ} (h : B.toSize x = n) :
    ∃ c : ℤ, x = n + B.sizeT.modulus * c := by
  refine ⟨x / B.sizeT.modulus, ?_⟩
  have hM : (0 : ℤ) < B.sizeT.modulus := by exact_mod_cast modulus_pos _
  have h₀ := Int.emod_nonneg x hM.ne'
  have h₁ := Int.emod_add_mul_ediv x B.sizeT.modulus
  unfold Build.toSize at h
  omega

theorem toInt_eq {x : ℤ} (h₀ : -2 ^ 31 ≤ x) (h₁ : x < 2 ^ 31) : toInt x = x := by
  unfold toInt
  rw [Int.bmod_eq_of_le] <;> norm_num <;> omega

/-- A conversion to `int` changes the value by a multiple of `2 ^ 32`. -/
theorem exists_toInt (x : ℤ) : ∃ c : ℤ, toInt x = x + 2 ^ 32 * c := by
  refine ⟨-(Int.bdiv x (2 ^ 32)), ?_⟩
  have := Int.bmod_add_bdiv x (2 ^ 32)
  unfold toInt
  omega

/-- A conversion to `int` may be left out of a sum that is converted. -/
theorem toInt_toInt_add (x y : ℤ) : toInt (toInt x + y) = toInt (x + y) := Int.bmod_add_bmod

/-- A counter of type `int` has different values for `2 ^ 32` steps. -/
theorem toInt_ne {m n : ℕ} (h : m < n) (h' : n < m + 2 ^ 32) : toInt m ≠ toInt n := by
  intro heq
  obtain ⟨c, hc⟩ := exists_toInt m
  obtain ⟨d, hd⟩ := exists_toInt n
  omega

theorem toInt_mem (x : ℤ) : -2 ^ 31 ≤ toInt x ∧ toInt x < 2 ^ 31 := by
  unfold toInt
  have h₀ := Int.le_bmod (x := x) (m := 2 ^ 32) (by norm_num)
  have h₁ := Int.bmod_lt (x := x) (m := 2 ^ 32) (by norm_num)
  norm_num at h₀ h₁ ⊢
  exact ⟨h₀, h₁⟩

/-- The upper half of the 32-bit range becomes negative. -/
theorem toInt_wrap {n : ℕ} (h₀ : 2 ^ 31 ≤ n) (h₁ : n < 2 ^ 32) : toInt n = n - 2 ^ 32 := by
  obtain ⟨c, hc⟩ := exists_toInt n
  have := toInt_mem n
  omega

/-- A negative `int` becomes a huge `size_t` of 8 bytes. -/
theorem toSize_wrap (hB : B.sizeT = .b64) {n : ℕ} (h₁ : n < 2 ^ 32) :
    B.toSize ((n : ℤ) - 2 ^ 32) = 2 ^ 64 + n - 2 ^ 32 := by
  have hM : B.sizeT.modulus = 2 ^ 64 := by rw [hB]; rfl
  rw [← toSize_add_mul _ 1]
  exact toSize_eq (by rw [hM]; push_cast; omega) (by rw [hM]; omega)

theorem charToInt_of_lt {b : Byte} (h : b.toNat < 128) : charToInt b = b.toNat := by
  unfold charToInt
  rw [BitVec.toInt_eq_toNat_of_lt]
  omega

theorem charToInt_lt (b : Byte) : charToInt b < 128 := by
  unfold charToInt
  have := BitVec.toInt_lt (x := b)
  omega

/-- A `char` that has the value of an `unsigned char` is that character. -/
theorem eq_of_charToInt {b t : Byte} (h : charToInt b = t.toNat) : b = t := by
  have hlt := charToInt_lt b
  rw [← charToInt_of_lt (by omega)] at h
  exact BitVec.toInt_inj.1 h

end Arithmetic

end SimpleUv
