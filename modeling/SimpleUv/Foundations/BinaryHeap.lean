import Mathlib.Data.Set.Function
import Mathlib.Order.Interval.Set.Basic
import Mathlib.Order.Defs.LinearOrder
import Mathlib.Logic.Equiv.Basic

/-!
# Binary heaps by position

The elements of a binary tree without holes are numbered `1, …, n` row by row, so that the parent of
position `k` is `k / 2`. An arrangement `f` of the elements is `HeapOrdered` when none has a smaller key
than its parent. Removing an element or adding one disturbs the order around one position `i` only: what
is left is `Loose` there. Exchanging `i` with the smaller of its children moves the disturbance down
(`Loose.swapDown`), and once no child of `i` is smaller (`SettledBelow`), exchanging `i` with its parent moves
it up (`SettledBelow.swapUp`), until nothing is left of it. An exchange keeps the elements
(`elements_exchange`).
-/

namespace Foundations

variable {α κ : Type*} [LinearOrder κ] (key : α → κ)

/-- None of the elements at the positions `1, …, n` has a smaller key than its parent. -/
def HeapOrdered (n : ℕ) (f : ℕ → α) : Prop :=
  ∀ k, 2 ≤ k → k ≤ n → key (f (k / 2)) ≤ key (f k)

/-- The order holds but between `i` and its parent and between `i` and its children. -/
structure Loose (n : ℕ) (f : ℕ → α) (i : ℕ) : Prop where
  edges : ∀ k, 2 ≤ k → k ≤ n → k ≠ i → k / 2 ≠ i → key (f (k / 2)) ≤ key (f k)
  grand : ∀ k, 2 ≤ i → k ≤ n → k / 2 = i → key (f (i / 2)) ≤ key (f k)

/-- The order holds but between `i` and its parent. -/
structure SettledBelow (n : ℕ) (f : ℕ → α) (i : ℕ) : Prop extends Loose key n f i where
  below : ∀ k, k ≤ n → k / 2 = i → key (f i) ≤ key (f k)

/-- The elements at the positions `1, …, n`. -/
def elements (n : ℕ) (f : ℕ → α) : Set α := f '' Set.Icc 1 n

/-- The arrangement with the elements at two positions exchanged. -/
def exchange (f : ℕ → α) (i j : ℕ) : ℕ → α := f ∘ Equiv.swap i j

variable {key} {n i j k : ℕ} {f : ℕ → α} {a : α}

@[simp] theorem exchange_left : exchange f i j i = f j := by simp [exchange]

@[simp] theorem exchange_right : exchange f i j j = f i := by simp [exchange]

theorem exchange_of_ne (hi : k ≠ i) (hj : k ≠ j) : exchange f i j k = f k := by
  simp [exchange, Equiv.swap_apply_of_ne_of_ne hi hj]

theorem mem_elements : a ∈ elements n f ↔ ∃ k, 1 ≤ k ∧ k ≤ n ∧ f k = a := by
  simp [elements, and_assoc]

theorem elements_exchange_subset (hi : i ∈ Set.Icc 1 n) (hj : j ∈ Set.Icc 1 n) :
    elements n (exchange f i j) ⊆ elements n f := by
  rintro _ ⟨k, hk, rfl⟩
  rcases eq_or_ne k i with rfl | hki
  · exact ⟨j, hj, exchange_left.symm⟩
  rcases eq_or_ne k j with rfl | hkj
  · exact ⟨i, hi, exchange_right.symm⟩
  exact ⟨k, hk, (exchange_of_ne hki hkj).symm⟩

/-- Exchanging two elements keeps the elements. -/
theorem elements_exchange (hi : i ∈ Set.Icc 1 n) (hj : j ∈ Set.Icc 1 n) :
    elements n (exchange f i j) = elements n f := by
  refine (elements_exchange_subset hi hj).antisymm ?_
  have h := elements_exchange_subset (f := exchange f i j) hi hj
  have hid : exchange (exchange f i j) i j = f := by
    funext k
    simp [exchange]
  rwa [hid] at h

/-- The elements differ before an exchange when they do after it. -/
theorem injOn_exchange (hf : Set.InjOn f (Set.Icc 1 n)) (hi : i ∈ Set.Icc 1 n)
    (hj : j ∈ Set.Icc 1 n) : Set.InjOn (exchange f i j) (Set.Icc 1 n) := by
  have hmaps : ∀ k ∈ Set.Icc 1 n, Equiv.swap i j k ∈ Set.Icc 1 n := by
    intro k hk
    rw [Equiv.swap_apply_def]
    split_ifs
    exacts [hj, hi, hk]
  intro k hk l hl hkl
  exact (Equiv.swap i j).injective (hf (hmaps k hk) (hmaps l hl) hkl)

/-- An element that is not there yet, put at a position. -/
theorem injOn_update {m : ℕ} (hf : Set.InjOn f (Set.Icc 1 n)) (hmn : ∀ k, 1 ≤ k → k ≤ m → k ≠ i → k ≤ n)
    (ha : ∀ k, 1 ≤ k → k ≤ n → k ≠ i → f k ≠ a) :
    Set.InjOn (Function.update f i a) (Set.Icc 1 m) := by
  intro k hk l hl hkl
  rcases eq_or_ne k i with rfl | hki
  · rcases eq_or_ne l k with rfl | hlk
    · rfl
    · rw [Function.update_self, Function.update_of_ne hlk] at hkl
      exact absurd hkl.symm (ha l hl.1 (hmn l hl.1 hl.2 hlk) hlk)
  rcases eq_or_ne l i with rfl | hli
  · rw [Function.update_self, Function.update_of_ne hki] at hkl
    exact absurd hkl (ha k hk.1 (hmn k hk.1 hk.2 hki) hki)
  · rw [Function.update_of_ne hki, Function.update_of_ne hli] at hkl
    exact hf ⟨hk.1, hmn k hk.1 hk.2 hki⟩ ⟨hl.1, hmn l hl.1 hl.2 hli⟩ hkl

/-- An element at the end is one more. -/
theorem elements_append (f : ℕ → α) (n : ℕ) (a : α) :
    elements (n + 1) (Function.update f (n + 1) a) = insert a (elements n f) := by
  ext b
  rw [mem_elements, Set.mem_insert_iff, mem_elements]
  constructor
  · rintro ⟨k, h1, hk, rfl⟩
    rcases eq_or_ne k (n + 1) with rfl | hkn
    · exact Or.inl (Function.update_self ..)
    · exact Or.inr ⟨k, h1, by omega, (Function.update_of_ne hkn _ _).symm⟩
  · rintro (rfl | ⟨k, h1, hk, rfl⟩)
    · exact ⟨n + 1, by omega, le_rfl, Function.update_self ..⟩
    · exact ⟨k, h1, by omega, Function.update_of_ne (by omega) _ _⟩

/-- The last element in the place of another one: the other one is gone. -/
theorem elements_replace (hf : Set.InjOn f (Set.Icc 1 (n + 1))) (h1 : 1 ≤ i) (hi : i ≤ n) :
    elements n (Function.update f i (f (n + 1))) = elements (n + 1) f \ {f i} := by
  ext b
  rw [mem_elements, Set.mem_sdiff, mem_elements, Set.mem_singleton_iff]
  constructor
  · rintro ⟨k, hk1, hk, rfl⟩
    rcases eq_or_ne k i with rfl | hki
    · rw [Function.update_self]
      refine ⟨⟨n + 1, by omega, le_rfl, rfl⟩, fun hc => ?_⟩
      have := hf ⟨by omega, le_rfl⟩ ⟨h1, by omega⟩ hc
      omega
    · rw [Function.update_of_ne hki]
      exact ⟨⟨k, hk1, by omega, rfl⟩, fun hc => hki (hf ⟨hk1, by omega⟩ ⟨h1, by omega⟩ hc)⟩
  · rintro ⟨⟨k, hk1, hk, rfl⟩, hki⟩
    rcases eq_or_ne k (n + 1) with rfl | hkn
    · exact ⟨i, h1, hi, Function.update_self ..⟩
    · exact ⟨k, hk1, by omega, Function.update_of_ne (fun hc => hki (congrArg f hc)) _ _⟩

/-- Without the last element. -/
theorem elements_dropLast (hf : Set.InjOn f (Set.Icc 1 (n + 1))) :
    elements n f = elements (n + 1) f \ {f (n + 1)} := by
  ext b
  rw [mem_elements, Set.mem_sdiff, mem_elements, Set.mem_singleton_iff]
  constructor
  · rintro ⟨k, hk1, hk, rfl⟩
    refine ⟨⟨k, hk1, by omega, rfl⟩, fun hc => ?_⟩
    have := hf ⟨hk1, by omega⟩ ⟨by omega, le_rfl⟩ hc
    omega
  · rintro ⟨⟨k, hk1, hk, rfl⟩, hkn⟩
    rcases eq_or_ne k (n + 1) with rfl | hk'
    · exact absurd rfl hkn
    · exact ⟨k, hk1, by omega, rfl⟩

namespace HeapOrdered

/-- **The first element has the least key.** -/
theorem root_le (h : HeapOrdered key n f) (h1 : 1 ≤ k) (hn : k ≤ n) : key (f 1) ≤ key (f k) := by
  induction k using Nat.strong_induction_on with
  | _ k ih =>
    rcases h1.eq_or_lt with rfl | h2
    · exact le_rfl
    · exact (ih (k / 2) (by omega) (by omega) (by omega)).trans (h k h2 hn)

/-- A new element at the end is above nothing. -/
theorem append (h : HeapOrdered key n f) (a : α) :
    SettledBelow key (n + 1) (Function.update f (n + 1) a) (n + 1) where
  edges k h2 hk hki _ := by
    rw [Function.update_of_ne (by omega), Function.update_of_ne hki]
    exact h k h2 (by omega)
  grand k h2 hk hki := by omega
  below k hk hki := by omega

/-- The last element, put in the place of another one, disturbs the order there only. -/
theorem replace (h : HeapOrdered key (n + 1) f) (a : α) (i : ℕ) :
    Loose key n (Function.update f i a) i where
  edges k h2 hk hki hki' := by
    rw [Function.update_of_ne hki', Function.update_of_ne hki]
    exact h k h2 (by omega)
  grand k h2 hk hki := by
    rw [Function.update_of_ne (by omega), Function.update_of_ne (by omega)]
    exact (h i h2 (by omega)).trans (hki ▸ h k (by omega) (by omega))

/-- The arrangement without its last element. -/
theorem dropLast (h : HeapOrdered key (n + 1) f) : HeapOrdered key n f :=
  fun k h2 hk => h k h2 (by omega)

end HeapOrdered

/-- Exchanging a position with the smaller of its children moves the disturbance to the child. -/
theorem Loose.swapDown (h : Loose key n f i) (hi : 1 ≤ i) (hj : j ≤ n) (hji : j / 2 = i)
    (hlt : key (f j) < key (f i)) (hmin : ∀ k, k ≤ n → k / 2 = i → key (f j) ≤ key (f k)) :
    Loose key n (exchange f i j) j where
  edges k h2 hk hkj hkj' := by
    rcases eq_or_ne k i with rfl | hki
    · rw [exchange_left, exchange_of_ne (by omega) (by omega)]
      exact h.grand j h2 hj hji
    rw [exchange_of_ne hki hkj]
    rcases eq_or_ne (k / 2) i with hki' | hki'
    · rw [hki', exchange_left]
      exact hmin k hk hki'
    · rw [exchange_of_ne hki' hkj']
      exact h.edges k h2 hk hki hki'
  grand k h2 hk hkj := by
    rw [hji, exchange_left, exchange_of_ne (by omega) (by omega), ← hkj]
    exact h.edges k (by omega) hk (by omega) (by omega)

namespace SettledBelow

/-- Exchanging a position with its larger parent moves the disturbance to the parent. -/
theorem swapUp (h : SettledBelow key n f i) (h2 : 2 ≤ i) (hi : i ≤ n)
    (hlt : key (f i) < key (f (i / 2))) :
    SettledBelow key n (exchange f (i / 2) i) (i / 2) where
  edges k hk2 hk hkp hkp' := by
    have hki : k ≠ i := fun hki => hkp' (by rw [hki])
    rw [exchange_of_ne hkp hki]
    rcases eq_or_ne (k / 2) i with hki' | hki'
    · rw [hki', exchange_right]
      exact h.grand k h2 hk hki'
    · rw [exchange_of_ne hkp' hki']
      exact h.edges k hk2 hk hki hki'
  grand k hp2 hk hkp := by
    have hparent := h.edges (i / 2) hp2 (by omega) (by omega) (by omega)
    rw [exchange_of_ne (i := i / 2) (k := i / 2 / 2) (by omega) (by omega)]
    rcases eq_or_ne k i with rfl | hki
    · rwa [exchange_right]
    · rw [exchange_of_ne (by omega) hki]
      exact hparent.trans (hkp ▸ h.edges k (by omega) hk hki (by omega))
  below k hk hkp := by
    rw [exchange_left]
    rcases eq_or_ne k i with rfl | hki
    · rw [exchange_right]
      exact hlt.le
    · rw [exchange_of_ne (by omega) hki]
      exact hlt.le.trans (hkp ▸ h.edges k (by omega) hk hki (by omega))

/-- Nothing is left of the disturbance at the first position, or below a parent that is not larger. -/
theorem ordered (h : SettledBelow key n f i) (hi : 2 ≤ i → key (f (i / 2)) ≤ key (f i)) :
    HeapOrdered key n f := by
  intro k h2 hk
  rcases eq_or_ne k i with rfl | hki
  · exact hi h2
  rcases eq_or_ne (k / 2) i with hki' | hki'
  · rw [hki']
    exact h.below k hk hki'
  · exact h.edges k h2 hk hki hki'

end SettledBelow

end Foundations
