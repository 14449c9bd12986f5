import SimpleUv.Foundations.Positional
import SimpleUv.Machine.Build

/-!
# Integers in memory

An integer stands in memory with its least significant byte first on a little-endian host, and with its
most significant byte first on a big-endian one: `image` are the bytes of an integer in memory, `word`
is the integer that is read from them. A byte-order conversion such as `htonl` gives the integer whose
bytes in memory are those of its argument on a big-endian host.
-/

namespace SimpleUv

open Foundations

/-- The `k` bytes of an integer in the memory of a host. -/
def image : ByteOrder → ℕ → ℕ → List Byte
  | .little, k, n => toBytes k n
  | .big, k, n => (toBytes k n).reverse

/-- The integer in the memory of a host that consists of the given bytes. -/
def word : ByteOrder → List Byte → ℕ
  | .little, bs => ofBytes bs
  | .big, bs => ofBytes bs.reverse

@[simp] theorem length_image (o : ByteOrder) (k n : ℕ) : (image o k n).length = k := by
  cases o <;> simp [image]

theorem word_lt (o : ByteOrder) (bs : List Byte) : word o bs < 256 ^ bs.length := by
  cases o
  · exact ofBytes_lt bs
  · rw [word, ← List.length_reverse]
    exact ofBytes_lt bs.reverse

/-- What is stored is read back. -/
theorem word_image (o : ByteOrder) {k n : ℕ} (h : n < 256 ^ k) : word o (image o k n) = n := by
  cases o
  · exact ofBytes_toBytes_of_lt h
  · rw [word, image, List.reverse_reverse]
    exact ofBytes_toBytes_of_lt h

/-- What is read is stored back. -/
theorem image_word (o : ByteOrder) {k : ℕ} {bs : List Byte} (h : bs.length = k) :
    image o k (word o bs) = bs := by
  subst h
  cases o
  · exact toBytes_ofBytes bs
  · rw [word, image, ← List.length_reverse, toBytes_ofBytes, List.reverse_reverse]

theorem image_mod (o : ByteOrder) (k n : ℕ) : image o k (n % 256 ^ k) = image o k n := by
  cases o <;> rw [image, image, toBytes_mod]

theorem image_inj (o : ByteOrder) {k m n : ℕ} (hm : m < 256 ^ k) (hn : n < 256 ^ k) :
    image o k m = image o k n ↔ m = n := by
  refine ⟨fun h => ?_, fun h => h ▸ rfl⟩
  rw [← word_image o hm, h, word_image o hn]

/-! ## The bytes of a word -/

/-- A byte that is cut out with a mask and a shift. -/
theorem mask_shift {w : ℕ} (n : BitVec w) (s : ℕ) (h : s + 8 ≤ w) :
    ((n &&& (0xff#w <<< s)) >>> s).setWidth 8 = n.extractLsb' s 8 := by
  apply BitVec.eq_of_getLsbD_eq
  intro i hi
  have h255 : ∀ i, i < 8 → (255 : ℕ).testBit i = true := by decide
  simp only [BitVec.getLsbD_setWidth, BitVec.getLsbD_ushiftRight, BitVec.getLsbD_and,
    BitVec.getLsbD_shiftLeft, BitVec.getLsbD_extractLsb', BitVec.getLsbD_ofNat]
  simp [hi, h255 i hi, show s + i < w by omega, show i < w by omega]

theorem toNat_append_byte {w : ℕ} (x : BitVec w) (b : Byte) :
    (x ++ b).toNat = b.toNat + 256 * x.toNat := by
  rw [BitVec.toNat_append, ← Nat.shiftLeft_add_eq_or_of_lt b.isLt, Nat.shiftLeft_eq]
  omega

end SimpleUv
