import Mathlib.Data.List.Basic
import Mathlib.Data.List.TakeDrop

/-!
# Overwriting a stretch of a list

`overwrite l off src` is the list `l` with the elements of `src` at the positions from `off` on:
the effect of a block copy on the destination. `slice l off n` are the `n` elements from `off` on:
what a block copy reads. The lemmas say what a slice reads back after an overwrite.
-/

namespace Foundations

variable {α : Type*}

/-- The list with `src` written over the positions from `off` on. -/
def overwrite (l : List α) (off : ℕ) (src : List α) : List α :=
  l.take off ++ src ++ l.drop (off + src.length)

/-- The `n` elements from position `off` on. -/
def slice (l : List α) (off n : ℕ) : List α := (l.drop off).take n

@[simp] theorem length_overwrite {l : List α} {o : ℕ} {r : List α}
    (h : o + r.length ≤ l.length) : (overwrite l o r).length = l.length := by
  simp only [overwrite, List.length_append, List.length_take, List.length_drop]
  omega

@[simp] theorem length_slice {l : List α} {o n : ℕ} (h : o + n ≤ l.length) :
    (slice l o n).length = n := by
  simp only [slice, List.length_take, List.length_drop]
  omega

@[simp] theorem slice_zero (l : List α) (n : ℕ) : slice l 0 n = l.take n := rfl

theorem slice_self (l : List α) : slice l 0 l.length = l := by simp

theorem slice_nil_of_zero (l : List α) (o : ℕ) : slice l o 0 = [] := by simp [slice]

/-- Adjacent slices join. -/
theorem slice_append_slice (l : List α) (o m n : ℕ) :
    slice l o m ++ slice l (o + m) n = slice l o (m + n) := by
  simp only [slice, ← List.drop_drop, ← List.take_add]

theorem slice_slice {l : List α} {o m a n : ℕ} (h : a + n ≤ m) :
    slice (slice l o m) a n = slice l (o + a) n := by
  simp only [slice, List.drop_take, List.take_take, List.drop_drop]
  congr 1
  omega

theorem take_slice {l : List α} {o m n : ℕ} (h : n ≤ m) :
    (slice l o m).take n = slice l o n := by
  rw [← slice_zero, slice_slice (by omega), Nat.add_zero]

theorem drop_slice (l : List α) (o m k : ℕ) :
    (slice l o m).drop k = slice l (o + k) (m - k) := by
  simp only [slice, List.drop_take, List.drop_drop]

theorem slice_append_left {l l' : List α} {o n : ℕ} (h : o + n ≤ l.length) :
    slice (l ++ l') o n = slice l o n := by
  simp only [slice]
  rw [List.drop_append_of_le_length (by omega), List.take_append_of_le_length]
  rw [List.length_drop]
  omega

theorem slice_append_right {l l' : List α} {o n : ℕ} (h : l.length ≤ o) :
    slice (l ++ l') o n = slice l' (o - l.length) n := by
  simp only [slice]
  rw [List.drop_append, List.drop_eq_nil_of_le h, List.nil_append]

theorem drop_take_eq_slice (l : List α) (a b : ℕ) : (l.take b).drop a = slice l a (b - a) := by
  simp [slice, List.drop_take]

section Overwrite

variable {l : List α} {o : ℕ} {r : List α}

/-- The overwritten stretch reads as the source. -/
theorem slice_overwrite_self (h : o ≤ l.length) :
    slice (overwrite l o r) o r.length = r := by
  have ht : (l.take o).length = o := by rw [List.length_take]; omega
  rw [overwrite, List.append_assoc, slice_append_right (by omega), ht, Nat.sub_self, slice_zero,
    List.take_left]

/-- Before the overwritten stretch nothing changes. -/
theorem slice_overwrite_before {a n : ℕ} (hl : o ≤ l.length) (h : a + n ≤ o) :
    slice (overwrite l o r) a n = slice l a n := by
  have ht : (l.take o).length = o := by rw [List.length_take]; omega
  rw [overwrite, List.append_assoc, slice_append_left (by omega), slice, slice, List.drop_take,
    List.take_take]
  congr 1
  omega

/-- Behind the overwritten stretch nothing changes. -/
theorem slice_overwrite_after {a n : ℕ} (hl : o + r.length ≤ l.length)
    (h : o + r.length ≤ a) : slice (overwrite l o r) a n = slice l a n := by
  have ht : (l.take o ++ r).length = o + r.length := by
    rw [List.length_append, List.length_take]
    omega
  rw [overwrite, slice_append_right (by omega), ht, slice, slice, List.drop_drop]
  congr 2
  omega

theorem take_overwrite_le {k : ℕ} (hl : o ≤ l.length) (h : k ≤ o) :
    (overwrite l o r).take k = l.take k := by
  rw [← slice_zero, slice_overwrite_before hl (by omega), slice_zero]

/-- The prefix that ends with the overwritten stretch. -/
theorem take_overwrite {k : ℕ} (hl : o ≤ l.length) (hk : k = o + r.length) :
    (overwrite l o r).take k = l.take o ++ r := by
  rw [hk, overwrite]
  refine List.take_left' ?_
  rw [List.length_append, List.length_take]
  omega

/-- Two adjacent stretches. -/
theorem overwrite_overwrite (r' : List α) :
    overwrite (overwrite l 0 r) r.length r' = overwrite l 0 (r ++ r') := by
  have hd : (overwrite l 0 r).drop (r.length + r'.length) =
      l.drop (r.length + r'.length) := by
    rw [overwrite, List.take_zero, List.nil_append, List.drop_append, List.drop_eq_nil_of_le
      (by omega), List.nil_append, List.drop_drop]
    congr 1
    omega
  rw [overwrite, take_overwrite (Nat.zero_le _) (Nat.zero_add _).symm, hd, overwrite,
    List.take_zero, List.nil_append, List.nil_append, List.length_append, Nat.zero_add]

/-- A stretch is replaced by one of the same length. -/
theorem overwrite_append {m r' : List α} (h : m.length = r'.length) :
    overwrite (l ++ (m ++ r)) l.length r' = l ++ (r' ++ r) := by
  rw [overwrite, List.take_left, ← List.drop_drop, List.drop_left, ← h, List.drop_left,
    List.append_assoc]

theorem overwrite_zero_take {k : ℕ} (hk : k = r.length) : (overwrite l 0 r).take k = r := by
  rw [take_overwrite (by omega) (by omega), List.take_zero, List.nil_append]

end Overwrite

end Foundations
