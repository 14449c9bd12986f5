import Mathlib.Data.List.Chain
import Mathlib.Logic.Function.Basic

/-!
# Circular linked lists

A memory `next` holds for each element the link to another one. `Links next l b` says that the elements
of `l` are linked in their order and the last one is linked to `b`; in a `Ring` the last one is linked
to the first. Whoever holds the last element of a ring reads the first one from it, and can put a new
one between the two (`Ring.concat`). A ring read from its first element on ends where the link leads
back to that element (`Links.head`).
-/

namespace Foundations

variable {α : Type*} {next next' : α → Option α} {l : List α} {a b t : α}

/-- The elements are linked in their order, and the last one to `b`. -/
def Links (next : α → Option α) (l : List α) (b : α) : Prop :=
  (l ++ [b]).IsChain fun x y => next x = some y

/-- The elements are linked in their order, and the last one to the first. -/
def Ring (next : α → Option α) (l : List α) : Prop :=
  ∀ a ∈ l.head?, Links next l a

namespace Links

theorem nil (next : α → Option α) (b : α) : Links next [] b := List.isChain_singleton b

theorem cons_iff : Links next (a :: l) b ↔ next a = some (l.headD b) ∧ Links next l b := by
  rw [Links, List.cons_append, List.isChain_cons]
  refine and_congr_left' ?_
  cases l <;> simp

theorem concat_iff : Links next (l ++ [t]) b ↔ Links next l t ∧ next t = some b := by
  rw [Links, Links, List.append_assoc, List.singleton_append, List.isChain_split]
  exact and_congr_right' List.isChain_pair

/-- Only the links of the elements matter. -/
theorem congr (h : Links next l b) (hl : ∀ x ∈ l, next' x = next x) : Links next' l b := by
  induction l with
  | nil => exact nil next' b
  | cons a l ih =>
    obtain ⟨ha, hrest⟩ := cons_iff.1 h
    refine cons_iff.2 ⟨?_, ih hrest fun x hx => hl x (List.mem_cons_of_mem a hx)⟩
    rw [hl a List.mem_cons_self, ha]

/-- The link of the first element leads to the second one, or to `b` when there is none. -/
theorem head [DecidableEq α] (h : Links next (a :: l) b) (hb : b ∉ l) :
    (if next a ≠ some b then next a else none) = l.head? := by
  rw [(cons_iff.1 h).1]
  cases l with
  | nil => simp
  | cons x l =>
    have hx : x ≠ b := fun hx => hb (hx ▸ List.mem_cons_self)
    simp [hx]

end Links

namespace Ring

theorem nil (next : α → Option α) : Ring next [] := nofun

theorem concat_iff : Ring next (l ++ [t]) ↔ Links next l t ∧ next t = some (l.headD t) := by
  have hhead : (l ++ [t]).head? = some (l.headD t) := by cases l <;> rfl
  simp only [Ring, hhead, Option.mem_def, Option.some.injEq, forall_eq', Links.concat_iff]

theorem congr (h : Ring next l) (hl : ∀ x ∈ l, next' x = next x) : Ring next' l :=
  fun a ha => (h a ha).congr hl

/-- **A new element between the last and the first** becomes the last one. -/
theorem concat [DecidableEq α] (h : Ring next (l ++ [t])) (ht : t ∉ l) (ha : a ∉ l ++ [t]) :
    Ring (Function.update (Function.update next a (next t)) t (some a)) (l ++ [t] ++ [a]) := by
  obtain ⟨hlinks, hlast⟩ := concat_iff.1 h
  have hat : a ≠ t := fun hat => ha (by simp [hat])
  refine concat_iff.2 ⟨Links.concat_iff.2 ⟨hlinks.congr fun x hx => ?_, ?_⟩, ?_⟩
  · have hxt : x ≠ t := fun hxt => ht (hxt ▸ hx)
    have hxa : x ≠ a := fun hxa => ha (List.mem_append_left _ (hxa ▸ hx))
    rw [Function.update_of_ne hxt, Function.update_of_ne hxa]
  · rw [Function.update_self]
  · rw [Function.update_of_ne hat, Function.update_self, hlast]
    cases l <;> rfl

/-- The first element of a ring with one element is that element. -/
theorem singleton (h : next a = some a) : Ring next [a] :=
  concat_iff (l := []).2 ⟨Links.nil next a, h⟩

end Ring

end Foundations
