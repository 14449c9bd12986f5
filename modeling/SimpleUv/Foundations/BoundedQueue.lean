import Mathlib.Algebra.Order.Group.Int
import Mathlib.Data.List.Basic

/-!
# Bounded queues

A queue with room for `capacity` elements. `put` appends the first of the given elements, as many as
are asked for and as there is room for; `drop` removes elements at the front, as many as are asked for
and as there are. Counts are integers: a count below zero asks for nothing.
-/

namespace Foundations

/-- A queue of at most `capacity` elements. -/
@[ext] structure BoundedQueue (α : Type*) (capacity : ℕ) where
  items : List α
  bounded : items.length ≤ capacity

namespace BoundedQueue

variable {α : Type*} {N : ℕ}

/-- The queue without elements. -/
def nil : BoundedQueue α N := ⟨[], Nat.zero_le N⟩

/-- How many of `count` elements there is room for. -/
def room (q : BoundedQueue α N) (count : ℤ) : ℕ :=
  (max 0 (min count (N - q.items.length))).toNat

/-- How many of `count` elements there are. -/
def ready (q : BoundedQueue α N) (count : ℤ) : ℕ := (max 0 (min count q.items.length)).toNat

theorem room_le (q : BoundedQueue α N) (count : ℤ) : q.items.length + q.room count ≤ N := by
  have := q.bounded
  unfold room
  omega

/-- The queue with the first of the elements `xs` appended. -/
def put (q : BoundedQueue α N) (xs : List α) (count : ℤ) : BoundedQueue α N where
  items := q.items ++ xs.take (q.room count)
  bounded := by
    have := q.room_le count
    rw [List.length_append, List.length_take]
    omega

/-- The elements that are removed. -/
def front (q : BoundedQueue α N) (count : ℤ) : List α := q.items.take (q.ready count)

/-- The queue without the elements that are removed. -/
def drop (q : BoundedQueue α N) (count : ℤ) : BoundedQueue α N where
  items := q.items.drop (q.ready count)
  bounded := by
    have := q.bounded
    rw [List.length_drop]
    omega

end BoundedQueue

end Foundations
