import SimpleUv.Foundations.BoundedQueue
import SimpleUv.Foundations.Simulation
import SimpleUv.TcpClient.PodCircularBuffer

/-!
# The ring buffer is a bounded queue

A sequence of calls of `write`, `read` and `clear` on a `CPodCircularBuffer` that was just built,
against a queue with room for as many elements as the ring buffer has. The buffers that the calls are
given may be longer than `count`, or just as long: a call that succeeds stays inside them. Counts and
capacity are integers of any size; for those that are `int`s, every sum and difference that a call
computes lies between `-N` and the larger of `N` and `count`, so none overflows.
-/

namespace SimpleUv

open Foundations

namespace CPodCircularBuffer

variable {T : Type*}

/-- A call. The caller's buffer has `count` elements, or more. -/
inductive Call (T : Type*)
  | write (buf : List T) (count : ℤ) (fits : count ≤ buf.length)
  | read (buf : List T) (count : ℤ) (fits : count ≤ buf.length)
  | clear

/-- What a call returns, with what it left in the caller's buffer. -/
inductive Answer (T : Type*)
  | wrote (n : ℤ)
  | read (buf : List T) (n : ℤ)
  | cleared

/-- A call on the ring buffer. -/
def call (r : CPodCircularBuffer T) : Call T → Option (CPodCircularBuffer T × Answer T)
  | .write buf count _ => (r.write buf count).map fun (r, n) => (r, .wrote n)
  | .read buf count _ => (r.read buf count).map fun (r, buf, n) => (r, .read buf n)
  | .clear => some (r.clear, .cleared)

/-- The same call on a bounded queue. -/
def specify {N : ℕ} (q : BoundedQueue T N) : Call T → BoundedQueue T N × Answer T
  | .write buf count _ => (q.put buf count, .wrote (q.room count))
  | .read buf count _ =>
    (q.drop count, .read (overwrite buf 0 (q.front count)) (q.ready count))
  | .clear => (.nil, .cleared)

/-- A ring buffer for `N` elements holds the queue. -/
def Simulated {N : ℕ} (r : CPodCircularBuffer T) (q : BoundedQueue T N) : Prop :=
  r.nBufSize = N ∧ r.Holds q.items

variable {N : ℕ}

/-- Each call does to the ring buffer what it does to the queue. -/
theorem simulates : Simulates (call (T := T)) specify (Simulated (N := N)) := by
  rintro r q c ⟨hsize, hq⟩
  cases c with
  | write buf count fits =>
    obtain ⟨r', m, hwrite, hm, hsize', hq'⟩ := write_spec hq fits
    have hroom : q.room count = m := by
      unfold BoundedQueue.room
      omega
    refine ⟨r', ?_, hsize'.trans hsize, ?_⟩
    · simp only [call, specify, hwrite, hroom, Option.map_some]
    · simpa only [specify, BoundedQueue.put, hroom] using hq'
  | read buf count fits =>
    obtain ⟨r', m, hread, hm, hsize', hq'⟩ := read_spec hq fits
    have hready : q.ready count = m := by
      unfold BoundedQueue.ready
      omega
    refine ⟨r', ?_, hsize'.trans hsize, ?_⟩
    · simp only [call, specify, BoundedQueue.front, hread, hready, Option.map_some]
    · simpa only [specify, BoundedQueue.drop, hready] using hq'
  | clear => exact ⟨r.clear, rfl, hsize, holds_clear hq⟩

/-- What the ring buffer says about itself is what is true of the queue, and its positions lie inside
the array. -/
structure Reflects {N : ℕ} (r : CPodCircularBuffer T) (q : BoundedQueue T N) : Prop where
  size : r.size = q.items.length
  empty : r.empty = true ↔ q.items = []
  full : r.full = true ↔ q.items.length = N
  readPos : 0 ≤ r.nReadPos ∧ r.nReadPos < N
  writePos : 0 ≤ r.nWritePos ∧ r.nWritePos < N

theorem Holds.positions {r : CPodCircularBuffer T} {q : List T} (h : r.Holds q) :
    (0 ≤ r.nReadPos ∧ r.nReadPos < r.nBufSize) ∧ 0 ≤ r.nWritePos ∧ r.nWritePos < r.nBufSize := by
  have inside : ∀ {a n : ℕ}, a < n → 0 ≤ (a : ℤ) ∧ (a : ℤ) < n :=
    fun h => ⟨Int.natCast_nonneg _, Int.ofNat_lt.2 h⟩
  cases h with
  | nothing ha => exact ⟨inside ha, inside ha⟩
  | linear haw hw => exact ⟨inside (haw.trans hw), inside hw⟩
  | wrapped hwa ha => exact ⟨inside ha, inside (hwa.trans_lt ha)⟩

theorem Simulated.reflects {r : CPodCircularBuffer T} {q : BoundedQueue T N} (h : Simulated r q) :
    Reflects r q := by
  obtain ⟨hsize, hq⟩ := h
  obtain ⟨hread, hwrite⟩ := hq.positions
  rw [hsize] at hread hwrite
  refine ⟨size_eq hq, empty_iff hq, ?_, hread, hwrite⟩
  rw [full_iff hq, hsize, Int.ofNat_inj]

/-- **The ring buffer is a bounded queue.** On any sequence of calls no `memcpy` leaves the array or
the caller's buffer and no `assert` fails, every call answers as the queue does, and afterwards the
ring buffer describes the queue. The memory is what `new T[capacity]` finds. -/
theorem bounded_fifo (memory : List T) (hcapacity : 0 < memory.length) (calls : List (Call T)) :
    ∃ r, answers call (construct memory) calls =
        some (r, (specified specify (.nil : BoundedQueue T memory.length) calls).2) ∧
      Reflects r (specified specify (.nil : BoundedQueue T memory.length) calls).1 := by
  have hstart : Simulated (construct memory) (.nil : BoundedQueue T memory.length) :=
    ⟨rfl, holds_construct hcapacity⟩
  obtain ⟨r, hrun, hr⟩ := simulates.run hstart calls
  exact ⟨r, hrun, hr.reflects⟩

/-- A write that lands on the end of the array, a read, and a write that goes round to the read
position. -/
theorem bounded_fifo_round :
    ∃ r, answers call (construct [0, 0, 0])
        [.write [1, 2, 3] 3 (by decide), .read [7, 7] 2 (by decide), .write [4, 5, 6] 3 (by decide)] =
          some (r, [.wrote 3, .read [1, 2] 2, .wrote 2]) ∧
      Reflects r (⟨[3, 4, 5], by decide⟩ : BoundedQueue ℕ 3) :=
  bounded_fifo [0, 0, 0] (by decide) _

end CPodCircularBuffer

end SimpleUv
