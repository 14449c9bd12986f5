import SimpleUv.Foundations.Overwrite
import Mathlib.Algebra.Order.Group.Int
import Mathlib.Tactic.SplitIfs

/-!
# The ring buffer

`CPodCircularBuffer`, branch by branch. Positions and counts are `int`; every `memcpy` is checked
against the buffer it reads and the buffer it writes, and every `assert` is checked, so a call is
`none` when one of them fails. `Holds r q` says that the buffer is in order and holds the queue `q`;
`write_spec` and `read_spec` give the effect of a call on the queue: a write appends as much as there
is room for, a read removes as much as there is.
-/

namespace SimpleUv

open Foundations

/-- The `n` elements at offset `off`, if they lie inside the array. -/
def loadAt {T : Type*} (l : List T) (off n : ℤ) : Option (List T) :=
  if 0 ≤ off ∧ 0 ≤ n ∧ off + n ≤ l.length then some (slice l off.toNat n.toNat) else none

/-- The array with `src` at offset `off`, if there is room for it. -/
def storeAt {T : Type*} (l : List T) (off : ℤ) (src : List T) : Option (List T) :=
  if 0 ≤ off ∧ off + src.length ≤ l.length then some (overwrite l off.toNat src) else none

/-- `memcpy(&dst[off], &src[from], n * sizeof(T))`. -/
def memcpy {T : Type*} (dst : List T) (off : ℤ) (src : List T) (start n : ℤ) : Option (List T) := do
  let elements ← loadAt src start n
  storeAt dst off elements

/-- `CPodCircularBuffer`. -/
structure CPodCircularBuffer (T : Type*) where
  bEmpty : Bool
  bFull : Bool
  buf : List T
  nBufSize : ℤ
  nReadPos : ℤ
  nWritePos : ℤ

namespace CPodCircularBuffer

variable {T : Type*} (r : CPodCircularBuffer T)

/-- The constructor, on the memory `new T[capacity]` finds. -/
def construct (buf : List T) : CPodCircularBuffer T := ⟨true, false, buf, buf.length, 0, 0⟩

/-- `empty`. -/
def empty : Bool := r.bEmpty

/-- `full`. -/
def full : Bool := r.bFull

/-- `clear`. -/
def clear : CPodCircularBuffer T :=
  { r with nReadPos := 0, nWritePos := 0, bEmpty := true, bFull := false }

/-- `size`. -/
def size : ℤ :=
  if r.bEmpty then 0
  else if r.bFull then r.nBufSize
  else if r.nReadPos < r.nWritePos then r.nWritePos - r.nReadPos
  else r.nBufSize - r.nReadPos + r.nWritePos

/-- `assert(m_nReadPos <= m_nBufSize)` and `assert(m_nWritePos <= m_nBufSize)`. -/
def assertPos : Option (CPodCircularBuffer T) :=
  if r.nReadPos ≤ r.nBufSize ∧ r.nWritePos ≤ r.nBufSize then some r else none

/-- `write` where the positions are equal: the buffer was empty. -/
def writeEmpty (src : List T) (count : ℤ) : Option (CPodCircularBuffer T × ℤ) :=
  let leftcount := r.nBufSize - r.nWritePos
  if leftcount > count then do
    let buf ← memcpy r.buf r.nWritePos src 0 count
    some ({ r with buf := buf, nWritePos := r.nWritePos + count }, count)
  else do
    let buf ← memcpy r.buf r.nWritePos src 0 leftcount
    let pos := if r.nReadPos > count - leftcount then count - leftcount else r.nWritePos
    let buf ← memcpy buf 0 src leftcount pos
    some ({ r with buf := buf, nWritePos := pos, bFull := pos = r.nReadPos }, leftcount + pos)

/-- `write` where the data does not wrap. -/
def writeLinear (src : List T) (count : ℤ) : Option (CPodCircularBuffer T × ℤ) :=
  let leftcount := r.nBufSize - r.nWritePos
  if leftcount > count then do
    let buf ← memcpy r.buf r.nWritePos src 0 count
    let pos := r.nWritePos + count
    let r ← assertPos { r with buf := buf, nWritePos := pos, bFull := r.nReadPos = pos }
    some (r, count)
  else do
    let buf ← memcpy r.buf r.nWritePos src 0 leftcount
    let pos := if r.nReadPos ≥ count - leftcount then count - leftcount else r.nReadPos
    let buf ← memcpy buf 0 src leftcount pos
    let r ← assertPos { r with buf := buf, nWritePos := pos, bFull := r.nReadPos = pos }
    some (r, leftcount + pos)

/-- `write` where the data wraps. -/
def writeWrapped (src : List T) (count : ℤ) : Option (CPodCircularBuffer T × ℤ) :=
  let leftcount := r.nReadPos - r.nWritePos
  if leftcount > count then do
    let buf ← memcpy r.buf r.nWritePos src 0 count
    let pos := r.nWritePos + count
    let r ← assertPos { r with buf := buf, nWritePos := pos, bFull := r.nReadPos = pos }
    some (r, count)
  else do
    let buf ← memcpy r.buf r.nWritePos src 0 leftcount
    let pos := r.nWritePos + leftcount
    let r ← assertPos { r with buf := buf, nWritePos := pos, bFull := r.nReadPos = pos }
    if r.bFull then some (r, leftcount) else none

/-- `write`, with the number of elements written. -/
def write (src : List T) (count : ℤ) : Option (CPodCircularBuffer T × ℤ) :=
  if count ≤ 0 then some (r, 0)
  else if r.bFull then some (r, 0)
  else
    let r := { r with bEmpty := false }
    if r.nReadPos = r.nWritePos then r.writeEmpty src count
    else if r.nReadPos < r.nWritePos then r.writeLinear src count
    else r.writeWrapped src count

/-- `read` where the positions are equal: the buffer was full. -/
def readFull (dst : List T) (count : ℤ) : Option (CPodCircularBuffer T × List T × ℤ) :=
  let leftcount := r.nBufSize - r.nReadPos
  if leftcount > count then do
    let dst ← memcpy dst 0 r.buf r.nReadPos count
    let pos := r.nReadPos + count
    some ({ r with nReadPos := pos, bEmpty := pos = r.nWritePos }, dst, count)
  else do
    let dst ← memcpy dst 0 r.buf r.nReadPos leftcount
    let pos := if r.nWritePos > count - leftcount then count - leftcount else r.nWritePos
    let dst ← memcpy dst leftcount r.buf 0 pos
    some ({ r with nReadPos := pos, bEmpty := pos = r.nWritePos }, dst, leftcount + pos)

/-- `read` where the data does not wrap. -/
def readLinear (dst : List T) (count : ℤ) : Option (CPodCircularBuffer T × List T × ℤ) := do
  let leftcount := r.nWritePos - r.nReadPos
  let c := if leftcount > count then count else leftcount
  let dst ← memcpy dst 0 r.buf r.nReadPos c
  let pos := r.nReadPos + c
  let r ← assertPos { r with nReadPos := pos, bEmpty := pos = r.nWritePos }
  some (r, dst, c)

/-- `read` where the data wraps. -/
def readWrapped (dst : List T) (count : ℤ) : Option (CPodCircularBuffer T × List T × ℤ) :=
  let leftcount := r.nBufSize - r.nReadPos
  if leftcount > count then do
    let dst ← memcpy dst 0 r.buf r.nReadPos count
    let pos := r.nReadPos + count
    let r ← assertPos { r with nReadPos := pos, bEmpty := pos = r.nWritePos }
    some (r, dst, count)
  else do
    let dst ← memcpy dst 0 r.buf r.nReadPos leftcount
    let pos := if r.nWritePos ≥ count - leftcount then count - leftcount else r.nWritePos
    let dst ← memcpy dst leftcount r.buf 0 pos
    let r ← assertPos { r with nReadPos := pos, bEmpty := pos = r.nWritePos }
    some (r, dst, leftcount + pos)

/-- `read` into `dst`, with the number of elements read. -/
def read (dst : List T) (count : ℤ) : Option (CPodCircularBuffer T × List T × ℤ) :=
  if count ≤ 0 then some (r, dst, 0)
  else if r.bEmpty then some (r, dst, 0)
  else
    let r := { r with bFull := false }
    if r.nReadPos = r.nWritePos then r.readFull dst count
    else if r.nReadPos < r.nWritePos then r.readLinear dst count
    else r.readWrapped dst count

/-! ## The queue in the buffer -/

/-- The elements from the read to the write position. -/
def content : List T :=
  if r.bEmpty then []
  else if r.nReadPos < r.nWritePos then
    slice r.buf r.nReadPos.toNat (r.nWritePos - r.nReadPos).toNat
  else r.buf.drop r.nReadPos.toNat ++ r.buf.take r.nWritePos.toNat

/-- A buffer with its array and its two positions. -/
abbrev place (bEmpty bFull : Bool) (l : List T) (a w : ℕ) : CPodCircularBuffer T :=
  ⟨bEmpty, bFull, l, l.length, a, w⟩

/-- The buffer holds a queue: it is empty, or the queue lies between the read and the write position,
or it goes on at the start of the array. -/
inductive Holds : CPodCircularBuffer T → List T → Prop
  | nothing {l : List T} {a : ℕ} (ha : a < l.length) : Holds (place true false l a a) []
  | linear {l : List T} {a w : ℕ} (haw : a < w) (hw : w < l.length) :
    Holds (place false false l a w) (slice l a (w - a))
  | wrapped {l : List T} {a w : ℕ} (hwa : w ≤ a) (ha : a < l.length) :
    Holds (place false (a = w) l a w) (l.drop a ++ l.take w)

section Copies

variable {d x : List T}

theorem drop_eq_slice (l : List T) (a : ℕ) : l.drop a = slice l a (l.length - a) := by
  rw [slice, List.take_of_length_le (by rw [List.length_drop])]

theorem memcpy_eq {off start n : ℤ} {o s m : ℕ} (ho : off = o) (hs : start = s) (hn : n = m)
    (hsrc : s + m ≤ x.length) (hdst : o + m ≤ d.length) :
    memcpy d off x start n = some (overwrite d o (slice x s m)) := by
  subst ho hs hn
  have hlen := length_slice hsrc
  unfold memcpy loadAt storeAt
  rw [if_pos ⟨by omega, by omega, by omega⟩, Option.bind_eq_bind, Option.bind_some]
  simp only [Int.toNat_natCast]
  rw [if_pos ⟨by omega, by omega⟩]

/-- Elements appended to a stretch of the array. -/
theorem slice_append {l : List T} {a w m : ℕ} (haw : a ≤ w) (hw : w + m ≤ l.length)
    (hm : m ≤ x.length) : slice (overwrite l w (slice x 0 m)) a (w + m - a) =
      slice l a (w - a) ++ x.take m := by
  have hlen : (slice x 0 m).length = m := length_slice (by omega)
  have hself := slice_overwrite_self (l := l) (o := w) (r := slice x 0 m) (by omega)
  rw [hlen] at hself
  have hsplit : w + m - a = (w - a) + m := by omega
  rw [hsplit, ← slice_append_slice, slice_overwrite_before (by omega) (by omega),
    Nat.add_sub_cancel' haw, hself, slice_zero]

/-- Elements appended to a stretch of the array, which goes on at its start. -/
theorem drop_append_take {l : List T} {a w p : ℕ} (haw : a ≤ w) (hw : w ≤ l.length) (hp : p ≤ a)
    (hsrc : l.length - w + p ≤ x.length) :
    (overwrite (overwrite l w (slice x 0 (l.length - w))) 0 (slice x (l.length - w) p)).drop a ++
        (overwrite (overwrite l w (slice x 0 (l.length - w))) 0
          (slice x (l.length - w) p)).take p =
      slice l a (w - a) ++ x.take (l.length - w + p) := by
  have hlen₁ : (slice x 0 (l.length - w)).length = l.length - w := length_slice (by omega)
  have hlen₂ : (slice x (l.length - w) p).length = p := length_slice (by omega)
  have hl₁ := length_overwrite (l := l) (o := w) (r := slice x 0 (l.length - w)) (by omega)
  have hl₂ := length_overwrite (l := overwrite l w (slice x 0 (l.length - w))) (o := 0)
    (r := slice x (l.length - w) p) (by omega)
  have hsplit : l.length - a = w + (l.length - w) - a := by omega
  rw [overwrite_zero_take hlen₂.symm, drop_eq_slice, hl₂, hl₁,
    slice_overwrite_after (by omega) (by omega), hsplit, slice_append haw (by omega) (by omega),
    List.append_assoc, ← slice_zero, ← slice_zero,
    ← slice_append_slice x 0 (l.length - w) p, Nat.zero_add]

/-- Elements written into the gap of an array that wraps. -/
theorem drop_append_take_gap {l : List T} {a w m : ℕ} (hwa : w + m ≤ a) (ha : a ≤ l.length)
    (hm : m ≤ x.length) : (overwrite l w (slice x 0 m)).drop a ++
      (overwrite l w (slice x 0 m)).take (w + m) = l.drop a ++ l.take w ++ x.take m := by
  have hlen : (slice x 0 m).length = m := length_slice (by omega)
  have hl := length_overwrite (l := l) (o := w) (r := slice x 0 m) (by omega)
  rw [take_overwrite (by omega) (by omega), drop_eq_slice, hl,
    slice_overwrite_after (by omega) (by omega), ← drop_eq_slice, slice_zero, List.append_assoc]

end Copies

variable {r} {l x d : List T} {a w k : ℕ} {q : List T}

/-! ## Writing -/

/-- The call appended elements of `src` to the queue, as many as `k` and the room allow. -/
def Wrote (N k : ℕ) (src q : List T) (res : Option (CPodCircularBuffer T × ℤ)) : Prop :=
  ∃ (r' : CPodCircularBuffer T) (m : ℕ), res = some (r', (m : ℤ)) ∧ m = min k (N - q.length) ∧
    r'.nBufSize = N ∧ r'.Holds (q ++ src.take m)

theorem memcpy_append {m : ℕ} (hm : m ≤ x.length) (hl : w + m ≤ l.length) :
    memcpy l w x 0 m = some (overwrite l w (slice x 0 m)) ∧
      (overwrite l w (slice x 0 m)).length = l.length := by
  have hlen : (slice x 0 m).length = m := length_slice (by omega)
  exact ⟨memcpy_eq rfl rfl rfl (by omega) hl, length_overwrite (by omega)⟩

/-- There is room behind data that does not wrap. -/
theorem holds_room (haw : a ≤ w) (hk : 0 < k) (hsrc : k ≤ x.length) (hlt : w + k < l.length) :
    Holds (place false false (overwrite l w (slice x 0 k)) a (w + k))
      (slice l a (w - a) ++ x.take k) := by
  rw [← slice_append haw hlt.le hsrc]
  refine .linear (by omega) ?_
  rwa [(memcpy_append hsrc hlt.le).2]

/-- The array after data was written up to its end, and `p` elements at its start. -/
def wrapAround (l x : List T) (w p : ℕ) : List T :=
  overwrite (overwrite l w (slice x 0 (l.length - w))) 0 (slice x (l.length - w) p)

/-- There is no room behind data that does not wrap. -/
theorem holds_wrapAround {p : ℕ} (haw : a ≤ w) (hw : w < l.length) (hp : p ≤ a)
    (hsrc : l.length - w + p ≤ x.length) :
    memcpy l w x 0 (l.length - w) = some (overwrite l w (slice x 0 (l.length - w))) ∧
    memcpy (overwrite l w (slice x 0 (l.length - w))) 0 x (l.length - w) p =
      some (wrapAround l x w p) ∧
    (wrapAround l x w p).length = l.length ∧
    Holds (place false (a = p) (wrapAround l x w p) a p)
      (slice l a (w - a) ++ x.take (l.length - w + p)) := by
  obtain ⟨hcopy, hl⟩ := memcpy_append (l := l) (w := w) (x := x) (m := l.length - w) (by omega)
    (by omega)
  have hlen : (slice x (l.length - w) p).length = p := length_slice (by omega)
  have hl₂ : (wrapAround l x w p).length = l.length :=
    (length_overwrite (by rw [hlen, hl]; omega)).trans hl
  rw [← drop_append_take haw hw.le hp hsrc]
  refine ⟨?_, memcpy_eq rfl (by omega) rfl (by omega) (by omega), hl₂, .wrapped hp ?_⟩
  · rw [← hcopy]
    congr 1
    omega
  · exact (haw.trans_lt hw).trans_eq hl₂.symm

theorem writeEmpty_spec (ha : a < l.length) (hk : 0 < k) (hsrc : k ≤ x.length) :
    Wrote l.length k x [] ((place false false l a a).writeEmpty x k) := by
  by_cases hlt : a + k < l.length
  · obtain ⟨hcopy, hl⟩ := memcpy_append hsrc hlt.le
    have hq := holds_room le_rfl hk hsrc hlt
    rw [Nat.sub_self, slice_nil_of_zero] at hq
    refine ⟨_, k, (if_pos ?_).trans ?_, ?_, ?_, hq⟩
    · show (l.length : ℤ) - a > k
      omega
    · simp only [place, hcopy, hl]
      rfl
    · rw [List.length_nil]
      omega
    · simp only [hl]
  · -- the data goes on at the start of the array, up to the read position
    obtain ⟨p, hp⟩ : ∃ p, p = min a (k - (l.length - a)) := ⟨_, rfl⟩
    have hpos : (if (a : ℤ) > k - (l.length - a) then (k : ℤ) - (l.length - a) else a) = p := by
      split_ifs <;> omega
    obtain ⟨hcopy₁, hcopy₂, hl, hq⟩ := holds_wrapAround (l := l) (x := x) (a := a) (w := a)
      (p := p) le_rfl ha (by omega) (by omega)
    have hcount : (l.length : ℤ) - a + p = ((l.length - a + p : ℕ) : ℤ) := by omega
    have hfull : decide ((p : ℤ) = a) = decide (a = p) := decide_eq_decide.2 (by omega)
    rw [Nat.sub_self, slice_nil_of_zero] at hq
    refine ⟨_, l.length - a + p, (if_neg ?_).trans ?_, ?_, ?_, hq⟩
    · show ¬ (l.length : ℤ) - a > k
      omega
    · simp only [place, hcopy₁, hpos, hcopy₂, hl, Option.bind_eq_bind, Option.bind_some, hcount, hfull]
    · rw [List.length_nil]
      omega
    · simp only [hl]

theorem writeLinear_spec (haw : a < w) (hw : w < l.length) (hk : 0 < k) (hsrc : k ≤ x.length) :
    Wrote l.length k x (slice l a (w - a)) ((place false false l a w).writeLinear x k) := by
  have hlen : (slice l a (w - a)).length = w - a := length_slice (by omega)
  by_cases hlt : w + k < l.length
  · obtain ⟨hcopy, hl⟩ := memcpy_append hsrc hlt.le
    have hfull : decide ((a : ℤ) = w + k) = false := decide_eq_false (by omega)
    refine ⟨_, k, (if_pos ?_).trans ?_, ?_, ?_, holds_room haw.le hk hsrc hlt⟩
    · show (l.length : ℤ) - w > k
      omega
    · simp only [place, hcopy, hl, hfull, assertPos, Option.bind_eq_bind, Option.bind_some]
      rw [if_pos ⟨by omega, by omega⟩]
      rfl
    · omega
    · simp only [hl]
  · obtain ⟨p, hp⟩ : ∃ p, p = min a (k - (l.length - w)) := ⟨_, rfl⟩
    have hpos : (if (a : ℤ) ≥ k - (l.length - w) then (k : ℤ) - (l.length - w) else a) = p := by
      split_ifs <;> omega
    obtain ⟨hcopy₁, hcopy₂, hl, hq⟩ := holds_wrapAround (l := l) (x := x) (a := a) (w := w)
      (p := p) haw.le hw (by omega) (by omega)
    have hcount : (l.length : ℤ) - w + p = ((l.length - w + p : ℕ) : ℤ) := by omega
    have hfull : decide ((a : ℤ) = p) = decide (a = p) := decide_eq_decide.2 (by omega)
    refine ⟨_, l.length - w + p, (if_neg ?_).trans ?_, ?_, ?_, hq⟩
    · show ¬ (l.length : ℤ) - w > k
      omega
    · simp only [place, hcopy₁, hpos, hcopy₂, hl, Option.bind_eq_bind, Option.bind_some, hcount, hfull,
        assertPos]
      rw [if_pos ⟨by omega, by omega⟩]
      rfl
    · omega
    · simp only [hl]

theorem writeWrapped_spec (hwa : w < a) (ha : a < l.length) (hsrc : k ≤ x.length) :
    Wrote l.length k x (l.drop a ++ l.take w) ((place false false l a w).writeWrapped x k) := by
  have hlen : (l.drop a ++ l.take w).length = l.length - a + w := by
    rw [List.length_append, List.length_drop, List.length_take]
    omega
  have key : ∀ m, w + m ≤ a → m ≤ x.length →
      memcpy l w x 0 m = some (overwrite l w (slice x 0 m)) ∧
      (overwrite l w (slice x 0 m)).length = l.length ∧
      Holds (place false (a = w + m) (overwrite l w (slice x 0 m)) a (w + m))
        (l.drop a ++ l.take w ++ x.take m) := by
    intro m hm hsrc
    obtain ⟨hcopy, hl⟩ := memcpy_append (l := l) (w := w) hsrc (by omega)
    rw [← drop_append_take_gap hm ha.le hsrc]
    exact ⟨hcopy, hl, .wrapped hm (hl.symm ▸ ha)⟩
  by_cases hlt : w + k < a
  · obtain ⟨hcopy, hl, hq⟩ := key k hlt.le hsrc
    have hfull : decide ((a : ℤ) = w + k) = decide (a = w + k) := decide_eq_decide.2 (by omega)
    refine ⟨_, k, (if_pos ?_).trans ?_, ?_, ?_, hq⟩
    · show (a : ℤ) - w > k
      omega
    · simp only [place, hcopy, hl, hfull, assertPos, Option.bind_eq_bind, Option.bind_some]
      rw [if_pos ⟨by omega, by omega⟩]
      rfl
    · omega
    · simp only [hl]
  · obtain ⟨hcopy, hl, hq⟩ := key (a - w) (by omega) (by omega)
    have hcount : (a : ℤ) - w = ((a - w : ℕ) : ℤ) := by omega
    refine ⟨_, a - w, (if_neg ?_).trans ?_, ?_, ?_, hq⟩
    · show ¬ (a : ℤ) - w > k
      omega
    · simp only [place, hcount, hcopy, hl, assertPos, Option.bind_eq_bind, Option.bind_some]
      rw [if_pos ⟨by omega, by omega⟩, Option.bind_some, if_pos (decide_eq_true (by omega))]
      rw [decide_eq_decide.2 (show (a : ℤ) = w + (a - w : ℕ) ↔ a = w + (a - w) by omega)]
      rfl
    · omega
    · simp only [hl]

theorem Holds.length_le (h : r.Holds q) : (q.length : ℤ) ≤ r.nBufSize := by
  cases h with
  | @nothing l a ha => exact Int.natCast_nonneg l.length
  | @linear l a w haw hw =>
    have hlen : (slice l a (w - a)).length = w - a := length_slice (by omega)
    show ((slice l a (w - a)).length : ℤ) ≤ l.length
    omega
  | @wrapped l a w hwa ha =>
    have hlen : (l.drop a ++ l.take w).length = l.length - a + w := by
      rw [List.length_append, List.length_drop, List.length_take]
      omega
    show ((l.drop a ++ l.take w).length : ℤ) ≤ l.length
    omega

/-- With a positive count, `write` takes the branch of the shape of the data. -/
theorem write_pos (h : r.Holds q) (hk : 0 < k) (hsrc : k ≤ x.length) :
    ∃ N : ℕ, r.nBufSize = N ∧ q.length ≤ N ∧ Wrote N k x q (r.write x k) := by
  have hcount : ¬ (k : ℤ) ≤ 0 := by omega
  cases h with
  | @nothing l a ha =>
    refine ⟨l.length, rfl, Nat.zero_le _, ?_⟩
    have hbranch : (place true false l a a).write x k =
        (place false false l a a).writeEmpty x k := by
      simp only [write, place, hcount, if_false, if_true, Bool.false_eq_true]
    rw [hbranch]
    exact writeEmpty_spec ha hk hsrc
  | @linear l a w haw hw =>
    refine ⟨l.length, rfl, ?_, ?_⟩
    · rw [length_slice (by omega)]
      omega
    have hne : ¬ (a : ℤ) = w := by omega
    have hlt : (a : ℤ) < w := by omega
    have hbranch : (place false false l a w).write x k =
        (place false false l a w).writeLinear x k := by
      simp only [write, place, hcount, hne, hlt, if_false, if_true, Bool.false_eq_true]
    rw [hbranch]
    exact writeLinear_spec haw hw hk hsrc
  | @wrapped l a w hwa ha =>
    have hlen : (l.drop a ++ l.take w).length = l.length - a + w := by
      rw [List.length_append, List.length_drop, List.length_take]
      omega
    refine ⟨l.length, rfl, by omega, ?_⟩
    by_cases hfull : a = w
    · subst hfull
      refine ⟨place false (a = a) l a a, 0, ?_, by omega, rfl, ?_⟩
      · simp only [write, place, hcount, if_false, decide_true, if_true]
        rfl
      · rw [List.take_zero, List.append_nil]
        exact .wrapped le_rfl ha
    · have hne : ¬ (a : ℤ) = w := by omega
      have hlt : ¬ (a : ℤ) < w := by omega
      have hbranch : (place false (a = w) l a w).write x k =
          (place false false l a w).writeWrapped x k := by
        simp only [write, place, hcount, hne, hlt, hfull, decide_false, if_false,
          Bool.false_eq_true]
      rw [hbranch]
      exact writeWrapped_spec (by omega) ha hsrc

/-- **A write appends as much as there is room for.** -/
theorem write_spec (h : r.Holds q) {count : ℤ} (hsrc : count ≤ x.length) :
    ∃ (r' : CPodCircularBuffer T) (m : ℕ), r.write x count = some (r', (m : ℤ)) ∧
      (m : ℤ) = max 0 (min count (r.nBufSize - q.length)) ∧ r'.nBufSize = r.nBufSize ∧
        r'.Holds (q ++ x.take m) := by
  rcases le_or_gt count 0 with hc | hc
  · refine ⟨r, 0, if_pos hc, by omega, rfl, ?_⟩
    rwa [List.take_zero, List.append_nil]
  · obtain ⟨k, rfl⟩ := Int.eq_ofNat_of_zero_le hc.le
    obtain ⟨N, hN, hle, r', m, hres, hm, hsize, hq⟩ :=
      write_pos h (k := k) (x := x) (by omega) (by omega)
    exact ⟨r', m, hres, by omega, hsize.trans hN.symm, hq⟩

/-! ## Reading -/

/-- The call took elements out of the queue `q` into `dst`, as many as `k` and the queue allow. -/
def Took (N k : ℕ) (dst q : List T) (res : Option (CPodCircularBuffer T × List T × ℤ)) : Prop :=
  ∃ (r' : CPodCircularBuffer T) (m : ℕ), res = some (r', overwrite dst 0 (q.take m), (m : ℤ)) ∧
    m = min k q.length ∧ r'.nBufSize = N ∧ r'.Holds (q.drop m)

/-- What is left of data that does not wrap. -/
theorem holds_rest (haw : a ≤ w) (hw : w < l.length) :
    Holds (place (a = w) false l a w) (slice l a (w - a)) := by
  by_cases h : a = w
  · subst h
    rw [Nat.sub_self, slice_nil_of_zero, decide_eq_true rfl]
    exact .nothing hw
  · rw [decide_eq_false h]
    exact .linear (by omega) hw

theorem readLinear_spec (haw : a < w) (hw : w < l.length) (hdst : k ≤ d.length) :
    Took l.length k d (slice l a (w - a)) ((place false false l a w).readLinear d k) := by
  have hlen : (slice l a (w - a)).length = w - a := length_slice (by omega)
  obtain ⟨m, hm⟩ : ∃ m, m = min k (w - a) := ⟨_, rfl⟩
  have hc : (if (w : ℤ) - a > k then (k : ℤ) else w - a) = m := by split_ifs <;> omega
  have hcopy : memcpy d 0 l a m = some (overwrite d 0 (slice l a m)) :=
    memcpy_eq rfl rfl rfl (by omega) (by omega)
  have hempty : decide ((a : ℤ) + m = w) = decide (a + m = w) := decide_eq_decide.2 (by omega)
  have hq := holds_rest (l := l) (a := a + m) (w := w) (by omega) hw
  rw [Nat.sub_add_eq, ← drop_slice] at hq
  refine ⟨_, m, ?_, by omega, rfl, hq⟩
  rw [take_slice (by omega)]
  simp only [readLinear, place, hc, hcopy, hempty, assertPos, Option.bind_eq_bind, Option.bind_some]
  rw [if_pos ⟨by omega, by omega⟩]
  rfl

/-- Less than what lies before the end of the array. -/
theorem take_drop_room (hlt : k < l.length - a) :
    (l.drop a ++ l.take w).take k = slice l a k ∧
      (l.drop a ++ l.take w).drop k = l.drop (a + k) ++ l.take w := by
  have hlen : k ≤ (l.drop a).length := by
    rw [List.length_drop]
    omega
  exact ⟨List.take_append_of_le_length hlen, by
    rw [List.drop_append_of_le_length hlen, List.drop_drop]⟩

/-- What lies before the end of the array, and `p` elements at its start. -/
theorem take_drop_wrapAround {p : ℕ} (hp : p ≤ w) (ha : a ≤ l.length) :
    (l.drop a ++ l.take w).take (l.length - a + p) = slice l a (l.length - a) ++ slice l 0 p ∧
      (l.drop a ++ l.take w).drop (l.length - a + p) = slice l p (w - p) := by
  have hlen : (l.drop a).length = l.length - a := List.length_drop
  constructor
  · rw [← hlen, List.take_length_add_append, List.take_take, min_eq_left hp, drop_eq_slice,
      length_slice (by omega), slice_zero]
  · rw [← hlen, List.drop_length_add_append, drop_take_eq_slice]

/-- Both copies of a read that goes on at the start of the array. -/
theorem memcpy_wrapAround {p : ℕ} (hp : p ≤ w) (hwa : w ≤ a) (ha : a < l.length)
    (hdst : l.length - a + p ≤ d.length) :
    ∃ d', memcpy d 0 l a (l.length - a) = some d' ∧
      memcpy d' (l.length - a) l 0 p =
        some (overwrite d 0 ((l.drop a ++ l.take w).take (l.length - a + p))) := by
  have hlen : (slice l a (l.length - a)).length = l.length - a := length_slice (by omega)
  have hd := length_overwrite (l := d) (o := 0) (r := slice l a (l.length - a)) (by omega)
  have hjoin := overwrite_overwrite (l := d) (r := slice l a (l.length - a)) (slice l 0 p)
  rw [hlen] at hjoin
  rw [(take_drop_wrapAround hp ha.le).1, ← hjoin]
  exact ⟨_, memcpy_eq (o := 0) (m := l.length - a) rfl rfl (by omega) (by omega) (by omega),
    memcpy_eq (o := l.length - a) (s := 0) (by omega) rfl rfl (by omega) (by omega)⟩

theorem readFull_spec (ha : a < l.length) (hk : 0 < k) (hdst : k ≤ d.length) :
    Took l.length k d (l.drop a ++ l.take a) ((place false false l a a).readFull d k) := by
  have hlen : (l.drop a ++ l.take a).length = l.length := by
    rw [List.length_append, List.length_drop, List.length_take]
    omega
  by_cases hlt : k < l.length - a
  · obtain ⟨htake, hdrop⟩ := take_drop_room (w := a) hlt
    have hcopy : memcpy d 0 l a k = some (overwrite d 0 (slice l a k)) :=
      memcpy_eq rfl rfl rfl (by omega) (by omega)
    have hempty : decide ((a : ℤ) + k = a) = false := decide_eq_false (by omega)
    have hfull : decide (a + k = a) = false := decide_eq_false (by omega)
    have hq := Holds.wrapped (l := l) (a := a + k) (w := a) (by omega) (by omega)
    rw [hfull, ← hdrop] at hq
    refine ⟨_, k, (if_pos ?_).trans ?_, by omega, rfl, hq⟩
    · show (l.length : ℤ) - a > k
      omega
    · simp only [place, hcopy, hempty, htake, Option.bind_eq_bind, Option.bind_some]
      rfl
  · obtain ⟨p, hp⟩ : ∃ p, p = min a (k - (l.length - a)) := ⟨_, rfl⟩
    have hpos : (if (a : ℤ) > k - (l.length - a) then (k : ℤ) - (l.length - a) else a) = p := by
      split_ifs <;> omega
    obtain ⟨d', hcopy₁, hcopy₂⟩ := memcpy_wrapAround (w := a) (p := p) (d := d) (by omega)
      le_rfl ha (by omega)
    have hcount : (l.length : ℤ) - a + p = ((l.length - a + p : ℕ) : ℤ) := by omega
    have hempty : decide ((p : ℤ) = a) = decide (p = a) := decide_eq_decide.2 (by omega)
    have hq := holds_rest (l := l) (a := p) (w := a) (by omega) ha
    rw [← (take_drop_wrapAround (p := p) (by omega) ha.le).2] at hq
    refine ⟨_, l.length - a + p, (if_neg ?_).trans ?_, by omega, rfl, hq⟩
    · show ¬ (l.length : ℤ) - a > k
      omega
    · simp only [place, hcopy₁, hpos, hcopy₂, hcount, hempty, Option.bind_eq_bind,
        Option.bind_some]

theorem readWrapped_spec (hwa : w < a) (ha : a < l.length) (hk : 0 < k) (hdst : k ≤ d.length) :
    Took l.length k d (l.drop a ++ l.take w) ((place false false l a w).readWrapped d k) := by
  have hlen : (l.drop a ++ l.take w).length = l.length - a + w := by
    rw [List.length_append, List.length_drop, List.length_take]
    omega
  by_cases hlt : k < l.length - a
  · obtain ⟨htake, hdrop⟩ := take_drop_room (w := w) hlt
    have hcopy : memcpy d 0 l a k = some (overwrite d 0 (slice l a k)) :=
      memcpy_eq rfl rfl rfl (by omega) (by omega)
    have hempty : decide ((a : ℤ) + k = w) = false := decide_eq_false (by omega)
    have hfull : decide (a + k = w) = false := decide_eq_false (by omega)
    have hq := Holds.wrapped (l := l) (a := a + k) (w := w) (by omega) (by omega)
    rw [hfull, ← hdrop] at hq
    refine ⟨_, k, (if_pos ?_).trans ?_, by omega, rfl, hq⟩
    · show (l.length : ℤ) - a > k
      omega
    · simp only [place, hcopy, hempty, htake, assertPos, Option.bind_eq_bind, Option.bind_some]
      rw [if_pos ⟨by omega, by omega⟩]
      rfl
  · obtain ⟨p, hp⟩ : ∃ p, p = min w (k - (l.length - a)) := ⟨_, rfl⟩
    have hpos : (if (w : ℤ) ≥ k - (l.length - a) then (k : ℤ) - (l.length - a) else w) = p := by
      split_ifs <;> omega
    obtain ⟨d', hcopy₁, hcopy₂⟩ := memcpy_wrapAround (w := w) (p := p) (d := d) (by omega)
      hwa.le ha (by omega)
    have hcount : (l.length : ℤ) - a + p = ((l.length - a + p : ℕ) : ℤ) := by omega
    have hempty : decide ((p : ℤ) = w) = decide (p = w) := decide_eq_decide.2 (by omega)
    have hq := holds_rest (l := l) (a := p) (w := w) (by omega) (by omega)
    rw [← (take_drop_wrapAround (p := p) (by omega) ha.le).2] at hq
    refine ⟨_, l.length - a + p, (if_neg ?_).trans ?_, by omega, rfl, hq⟩
    · show ¬ (l.length : ℤ) - a > k
      omega
    · simp only [place, hcopy₁, hpos, hcopy₂, hcount, hempty, assertPos, Option.bind_eq_bind,
        Option.bind_some]
      rw [if_pos ⟨by omega, by omega⟩]
      rfl

/-- With a positive count, `read` takes the branch of the shape of the data. -/
theorem read_pos (h : r.Holds q) (hk : 0 < k) (hdst : k ≤ d.length) :
    ∃ N : ℕ, r.nBufSize = N ∧ Took N k d q (r.read d k) := by
  have hcount : ¬ (k : ℤ) ≤ 0 := by omega
  cases h with
  | @nothing l a ha =>
    refine ⟨l.length, rfl, place true false l a a, 0, ?_, by simp, rfl, .nothing ha⟩
    simp only [read, place, hcount, if_false, if_true, List.take_nil, overwrite, List.take_zero,
      List.nil_append, List.length_nil, Nat.zero_add, List.drop_zero]
    rfl
  | @linear l a w haw hw =>
    have hne : ¬ (a : ℤ) = w := by omega
    have hlt : (a : ℤ) < w := by omega
    have hbranch : (place false false l a w).read d k =
        (place false false l a w).readLinear d k := by
      simp only [read, place, hcount, hne, hlt, if_false, if_true, Bool.false_eq_true]
    rw [hbranch]
    exact ⟨l.length, rfl, readLinear_spec haw hw hdst⟩
  | @wrapped l a w hwa ha =>
    by_cases hfull : a = w
    · subst hfull
      have hbranch : (place false (a = a) l a a).read d k =
          (place false false l a a).readFull d k := by
        simp only [read, place, hcount, if_false, if_true, Bool.false_eq_true]
      rw [hbranch]
      exact ⟨l.length, rfl, readFull_spec ha hk hdst⟩
    · have hne : ¬ (a : ℤ) = w := by omega
      have hlt : ¬ (a : ℤ) < w := by omega
      have hbranch : (place false (a = w) l a w).read d k =
          (place false false l a w).readWrapped d k := by
        simp only [read, place, hcount, hne, hlt, if_false, Bool.false_eq_true]
      rw [hbranch]
      exact ⟨l.length, rfl, readWrapped_spec (by omega) ha hk hdst⟩

/-- **A read takes as much as there is.** -/
theorem read_spec (h : r.Holds q) {count : ℤ} (hdst : count ≤ d.length) :
    ∃ (r' : CPodCircularBuffer T) (m : ℕ),
      r.read d count = some (r', overwrite d 0 (q.take m), (m : ℤ)) ∧
        (m : ℤ) = max 0 (min count q.length) ∧ r'.nBufSize = r.nBufSize ∧ r'.Holds (q.drop m) := by
  rcases le_or_gt count 0 with hc | hc
  · refine ⟨r, 0, (if_pos hc).trans ?_, by omega, rfl, h⟩
    simp [overwrite]
  · obtain ⟨k, rfl⟩ := Int.eq_ofNat_of_zero_le hc.le
    obtain ⟨N, hN, r', m, hres, hm, hsize, hq⟩ := read_pos h (k := k) (d := d) (by omega)
      (by omega)
    exact ⟨r', m, hres, by omega, hsize.trans hN.symm, hq⟩

/-! ## The other operations -/

theorem holds_construct {buf : List T} (h : 0 < buf.length) : (construct buf).Holds [] :=
  .nothing h

theorem holds_clear (h : r.Holds q) : r.clear.Holds [] := by
  cases h with
  | nothing ha => exact Holds.nothing (a := 0) (Nat.zero_lt_of_lt ha)
  | linear _ hw => exact Holds.nothing (a := 0) (Nat.zero_lt_of_lt hw)
  | wrapped _ ha => exact Holds.nothing (a := 0) (Nat.zero_lt_of_lt ha)

/-- The queue is determined by the buffer. -/
theorem Holds.content_eq (h : r.Holds q) : r.content = q := by
  cases h with
  | nothing ha => rfl
  | @linear l a w haw hw =>
    have hlt : (a : ℤ) < w := by omega
    have hsub : ((w : ℤ) - a).toNat = w - a := by omega
    simp only [content, hlt, hsub, Bool.false_eq_true, if_true, if_false, Int.toNat_natCast]
  | @wrapped l a w hwa ha =>
    have hlt : ¬ (a : ℤ) < w := by omega
    simp only [content, hlt, Bool.false_eq_true, if_false, Int.toNat_natCast]

theorem empty_iff (h : r.Holds q) : r.empty = true ↔ q = [] := by
  cases h with
  | nothing ha => simp [empty]
  | @linear l a w haw hw =>
    have hlen : (slice l a (w - a)).length = w - a := length_slice (by omega)
    simp only [empty, Bool.false_eq_true, false_iff]
    intro hnil
    rw [hnil, List.length_nil] at hlen
    omega
  | @wrapped l a w hwa ha =>
    simp only [empty, Bool.false_eq_true, false_iff, List.append_eq_nil_iff,
      List.drop_eq_nil_iff]
    omega

theorem size_eq (h : r.Holds q) : r.size = q.length := by
  cases h with
  | nothing ha => rfl
  | @linear l a w haw hw =>
    have hlt : (a : ℤ) < w := by omega
    rw [length_slice (by omega)]
    simp only [size, hlt, Bool.false_eq_true, if_true, if_false]
    omega
  | @wrapped l a w hwa ha =>
    have hlt : ¬ (a : ℤ) < w := by omega
    rw [List.length_append, List.length_drop, List.length_take]
    simp only [size, hlt, Bool.false_eq_true, if_false]
    split_ifs with hfull
    · have := of_decide_eq_true hfull
      omega
    · omega

theorem full_iff (h : r.Holds q) : r.full = true ↔ (q.length : ℤ) = r.nBufSize := by
  cases h with
  | nothing ha =>
    simp only [full, Bool.false_eq_true, false_iff, List.length_nil]
    omega
  | @linear l a w haw hw =>
    rw [length_slice (by omega)]
    simp only [full, Bool.false_eq_true, false_iff]
    omega
  | @wrapped l a w hwa ha =>
    rw [List.length_append, List.length_drop, List.length_take]
    simp only [full, decide_eq_true_eq]
    omega

end CPodCircularBuffer

end SimpleUv
