import SimpleUv.Machine.Build
import SimpleUv.Foundations.Overwrite
import Mathlib.Logic.Function.Basic

/-!
# Buffers and checked block copies

A `uv_buf_t` is an allocation and its recorded length; the code always sets the two together, so
the length is that of the allocation. Every access is checked: `load` fails unless the source range
lies inside the valid bytes and these inside the allocation, `store` fails unless the destination
range lies inside the recorded length. A failed access is `none`. Objects of a kind live on a heap, a
function from addresses to optional objects.
-/

namespace SimpleUv

open Foundations

/-- `uv_buf_t`. -/
structure UvBuf where
  base : List Byte
  deriving DecidableEq

namespace UvBuf

/-- The recorded length. -/
def len (b : UvBuf) : ℕ := b.base.length

/-- `realloc` to a larger size: the old bytes are kept, the new ones are whatever is there. -/
def realloc (B : Build) (b : UvBuf) (n : ℕ) : UvBuf :=
  ⟨b.base.take n ++ (List.range' b.len (n - b.len)).map B.junk⟩

/-- Writes `src` at offset `off`. -/
def store (b : UvBuf) (off : ℕ) (src : List Byte) : Option UvBuf :=
  if off + src.length ≤ b.len then some ⟨overwrite b.base off src⟩ else none

end UvBuf

/-- Reads `n` bytes at offset `off` of an allocation whose first `valid` bytes are valid. -/
def load (base : List Byte) (valid off n : ℕ) : Option (List Byte) :=
  if off + n ≤ valid ∧ valid ≤ base.length then some (slice base off n) else none

theorem load_eq {base : List Byte} {valid off n : ℕ} (h : off + n ≤ valid)
    (hv : valid ≤ base.length) : load base valid off n = some (slice base off n) :=
  if_pos ⟨h, hv⟩

theorem load_eq_none {base : List Byte} {valid off n : ℕ} (h : valid < off + n) :
    load base valid off n = none :=
  if_neg fun h' => by omega

namespace UvBuf

theorem store_eq {b : UvBuf} {off : ℕ} {src : List Byte} (h : off + src.length ≤ b.len) :
    b.store off src = some ⟨overwrite b.base off src⟩ := if_pos h

theorem len_overwrite {b : UvBuf} {off : ℕ} {src : List Byte} (h : off + src.length ≤ b.len) :
    (UvBuf.mk (overwrite b.base off src)).len = b.len := length_overwrite h

theorem len_realloc (B : Build) {b : UvBuf} {n : ℕ} (h : b.len ≤ n) : (b.realloc B n).len = n := by
  simp only [realloc, len, List.length_append, List.length_take, List.length_map,
    List.length_range'] at h ⊢
  omega

theorem slice_realloc (B : Build) {b : UvBuf} {n a k : ℕ} (h : b.len ≤ n) (hk : a + k ≤ b.len) :
    slice (b.realloc B n).base a k = slice b.base a k := by
  unfold len at h hk
  rw [realloc, List.take_of_length_le h, slice_append_left hk]

end UvBuf

theorem update_eq_some {β : Type*} {heap : ℕ → Option β} {a b : ℕ} {v : Option β} {x : β} :
    Function.update heap a v b = some x ↔ b = a ∧ v = some x ∨ b ≠ a ∧ heap b = some x := by
  by_cases hba : b = a
  · subst hba
    simp
  · simp [hba]

/-- What holds of the objects on a heap after a write to it. -/
theorem forall_update {β : Type*} {heap : ℕ → Option β} {P : ℕ → β → Prop} {a : ℕ} {v : Option β}
    (hold : ∀ b x, b ≠ a → heap b = some x → P b x) (hnew : ∀ x, v = some x → P a x) :
    ∀ b x, Function.update heap a v b = some x → P b x := by
  intro b x hx
  rcases update_eq_some.1 hx with ⟨rfl, hv⟩ | ⟨hba, hb⟩
  · exact hnew x hv
  · exact hold b x hba hb

end SimpleUv
