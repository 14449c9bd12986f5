import Mathlib.Data.Set.Card
import Mathlib.Order.Interval.Finset.Nat
import SimpleUv.Libuv.Heap

/-!
# The heap keeps its elements in order

`IsHeap key h s`: the links of `h` are those of a tree without holes whose nodes are the elements of `s`
and whose order is that of `key`. From an empty heap on, `heap_insert` and `heap_remove` follow no `NULL`
link and lead from such a heap to such a heap (`IsHeap.heapInsert`, `IsHeap.heapRemove`), and the loops of
their walks end within as many turns as there are bits in an `unsigned int`.
-/

namespace SimpleUv.Libuv

open Foundations

variable {A κ : Type*} {h : Heap A} {n i j k m : ℕ} {f : ℕ → A} {x : A}

/-! ### The path to a position -/

/-- The position that the turns of `path` lead to from `pos`. -/
def reach : ℕ → ℕ → ℕ → ℕ
  | 0, _, pos => pos
  | k + 1, path, pos => reach k (path / 2) (2 * pos + path % 2)

theorem le_reach (k path pos : ℕ) : pos ≤ reach k path pos := by
  induction k generalizing path pos with
  | zero => exact le_rfl
  | succ k ih => exact le_trans (by omega) (ih (path / 2) (2 * pos + path % 2))

theorem pathLoop_reach (fuel path k n : ℕ) (hn : 1 ≤ n) (hfuel : n < 2 ^ (fuel + 1)) (hpath : path < 2 ^ k)
    (hkn : 2 ^ k * n < 2 ^ 32) :
    reach (Heap.pathLoop fuel path k n).2 (Heap.pathLoop fuel path k n).1 1 = reach k path n := by
  induction fuel generalizing path k n with
  | zero =>
    obtain rfl : n = 1 := by omega
    rfl
  | succ fuel ih =>
    rw [Heap.pathLoop]
    split_ifs with h2
    · have hpow : 2 ^ (k + 1) = 2 * 2 ^ k := Nat.pow_succ'
      have hpow' : 2 ^ (fuel + 1 + 1) = 2 * 2 ^ (fuel + 1) := Nat.pow_succ'
      have hk : 2 * 2 ^ k ≤ 2 ^ k * n := by
        rw [Nat.mul_comm]
        exact Nat.mul_le_mul_left _ h2
      have hmod : 2 * path % 2 ^ 32 = 2 * path := Nat.mod_eq_of_lt (by omega)
      have hdiv : 2 ^ (k + 1) * (n / 2) ≤ 2 ^ k * n := by
        rw [Nat.pow_succ, Nat.mul_assoc]
        exact Nat.mul_le_mul_left _ (by omega)
      rw [hmod, ih _ _ _ (by omega) (by omega) (by omega) (by omega), reach]
      congr 1 <;> omega
    · obtain rfl : n = 1 := by omega
      rfl

/-- The path to a position leads there from the first one. -/
theorem pathTo_reach (hn : 1 ≤ n) (hlt : n < 2 ^ 32) :
    reach (Heap.pathTo n).2 (Heap.pathTo n).1 1 = n :=
  pathLoop_reach 31 0 0 n hn hlt (by omega) (by omega)

/-- The slot that holds the link to a position. -/
def slotAt (f : ℕ → A) (k : ℕ) : Slot A :=
  if k = 1 then .min else if k % 2 = 1 then .right (f (k / 2)) else .left (f (k / 2))

namespace Represents

theorem load_slotAt (hr : Represents h n f) (h1 : 1 ≤ k) (hk : k / 2 ≤ n) :
    h.load (slotAt f k) = occupant n f k := by
  rw [slotAt]
  split_ifs with hk1 hodd
  · subst hk1; exact hr.min
  · rw [Heap.load, hr.right _ (by omega) hk, show 2 * (k / 2) + 1 = k by omega]
  · rw [Heap.load, hr.left _ (by omega) hk, show 2 * (k / 2) = k by omega]

/-- **The walk along a path ends at the slot of the position it leads to.** -/
theorem traverse (hr : Represents h n f) (path pos : ℕ) (parent : Slot A) (h1 : 1 ≤ pos)
    (hn : reach k path pos / 2 ≤ n) :
    h.traverse k path parent (slotAt f pos) =
      some (if k = 0 then parent else slotAt f (reach k path pos / 2), slotAt f (reach k path pos)) := by
  induction k generalizing path pos parent with
  | zero => rfl
  | succ k ih =>
    have hpos : 2 * pos ≤ reach (k + 1) path pos :=
      le_trans (by omega) (le_reach k (path / 2) (2 * pos + path % 2))
    have hposn : pos ≤ n := by omega
    have hslot : (if path % 2 = 1 then .right (f pos) else .left (f pos)) =
        slotAt f (2 * pos + path % 2) := by
      rw [slotAt, if_neg (show ¬2 * pos + path % 2 = 1 by omega),
        show (2 * pos + path % 2) / 2 = pos by omega]
      exact if_congr (show path % 2 = 1 ↔ (2 * pos + path % 2) % 2 = 1 by omega) rfl rfl
    rw [Heap.traverse, hr.load_slotAt h1 (by omega), occupant_eq h1 hposn, Option.bind_eq_bind,
      Option.bind_some, hslot, ih (path / 2) (2 * pos + path % 2) (slotAt f pos) (by omega) hn, reach]
    cases k with
    | zero => simp [reach, show (2 * pos + path % 2) / 2 = pos by omega]
    | succ k => rfl

/-- The slot of a position is the left link of its parent when the position is even, -/
theorem slotAt_eq_left (hr : Represents h n f) (hm1 : 1 ≤ m) (hm : m / 2 ≤ n) (hk : 1 ≤ k) (hkn : k ≤ n) :
    slotAt f m = .left (f k) ↔ m = 2 * k := by
  rw [slotAt]
  split_ifs with h1 hodd
  · simp; omega
  · simp; omega
  · rw [Slot.left.injEq, hr.eq_iff (by omega) hm hk hkn]; omega

/-- and the right one when it is odd. -/
theorem slotAt_eq_right (hr : Represents h n f) (hm : m / 2 ≤ n) (hk : 1 ≤ k) (hkn : k ≤ n) :
    slotAt f m = .right (f k) ↔ m = 2 * k + 1 := by
  rw [slotAt]
  split_ifs with h1 hodd
  · simp; omega
  · rw [Slot.right.injEq, hr.eq_iff (by omega) hm hk hkn]; omega
  · simp; omega

theorem slotAt_eq_min : slotAt f m = .min ↔ m = 1 := by
  rw [slotAt]
  split_ifs <;> simp_all

variable [DecidableEq A]

/-- Without its last node the tree is linked as before. -/
theorem unlink (hr : Represents h (n + 1) f) :
    Represents { h.store (slotAt f (n + 1)) none with nelts := n } n f where
  nelts := rfl
  min := by
    show (h.store _ none).min = _
    rw [Heap.store_min, hr.min]
    simp only [slotAt_eq_min, occupant]
    split_ifs <;> first | rfl | omega
  left k h1 hk := by
    show (h.store _ none).left _ = _
    rw [Heap.store_left, hr.left k h1 (by omega)]
    simp only [hr.slotAt_eq_left (by omega : 1 ≤ n + 1) (by omega) h1 (by omega), occupant]
    split_ifs <;> first | rfl | omega
  right k h1 hk := by
    show (h.store _ none).right _ = _
    rw [Heap.store_right, hr.right k h1 (by omega)]
    simp only [hr.slotAt_eq_right (m := n + 1) (by omega) h1 (by omega), occupant]
    split_ifs <;> first | rfl | omega
  parent k h1 hk := by
    show (h.store _ none).parent _ = _
    rw [Heap.store_parent, hr.parent k h1 (by omega)]
    simp only [occupant]
    split_ifs <;> first | rfl | omega
  inj := hr.inj.mono (Set.Icc_subset_Icc_right n.le_succ)

/-- A node in the next slot, linked from and to its parent, is the last one. -/
theorem link (hr : Represents h n f) (hx : x ∉ elements n f) (hl : h.left x = none)
    (hri : h.right x = none) (hp : h.parent x = occupant n f ((n + 1) / 2)) :
    Represents { h.store (slotAt f (n + 1)) (some x) with nelts := n + 1 } (n + 1)
      (Function.update f (n + 1) x) := by
  have hne : ∀ k, 1 ≤ k → k ≤ n → f k ≠ x := fun k h1 hk hkx => hx ⟨k, ⟨h1, hk⟩, hkx⟩
  have hocc : ∀ k, occupant (n + 1) (Function.update f (n + 1) x) k =
      if k = n + 1 then some x else occupant n f k := by
    intro k
    by_cases hk : k = n + 1
    · subst hk; simp [occupant]
    · simp only [occupant, Function.update_of_ne hk, hk, if_false]
      split_ifs <;> first | rfl | omega
  refine ⟨rfl, ?_, ?_, ?_, ?_, ?_⟩
  · show (h.store _ _).min = _
    rw [Heap.store_min, hr.min, hocc]
    simp only [slotAt_eq_min, eq_comm]
  · intro k h1 hk
    show (h.store _ _).left _ = _
    rw [Heap.store_left, hocc]
    rcases eq_or_ne k (n + 1) with rfl | hkn
    · rw [Function.update_self, hl, if_neg, if_neg (by omega), occupant_eq_none (by omega)]
      rw [slotAt]
      split_ifs
      · simp
      · simp
      · simpa using hne _ (by omega) (by omega)
    · rw [Function.update_of_ne hkn, hr.left k h1 (by omega)]
      simp only [hr.slotAt_eq_left (by omega : 1 ≤ n + 1) (by omega) h1 (by omega), eq_comm]
  · intro k h1 hk
    show (h.store _ _).right _ = _
    rw [Heap.store_right, hocc]
    rcases eq_or_ne k (n + 1) with rfl | hkn
    · rw [Function.update_self, hri, if_neg, if_neg (by omega), occupant_eq_none (by omega)]
      rw [slotAt]
      split_ifs
      · simp
      · simpa using hne _ (by omega) (by omega)
      · simp
    · rw [Function.update_of_ne hkn, hr.right k h1 (by omega)]
      simp only [hr.slotAt_eq_right (m := n + 1) (by omega) h1 (by omega), eq_comm]
  · intro k h1 hk
    show (h.store _ _).parent _ = _
    rw [Heap.store_parent, hocc, if_neg (by omega)]
    rcases eq_or_ne k (n + 1) with rfl | hkn
    · rw [Function.update_self, hp]
    · rw [Function.update_of_ne hkn, hr.parent k h1 (by omega)]
  · exact injOn_update hr.inj (fun k _ hk hkn => by omega) fun k h1 hk _ => hne k h1 hk

omit [DecidableEq A] in
/-- The links of a node outside the heap do not matter. -/
theorem congr {h' : Heap A} (hr : Represents h n f) (hx : x ∉ elements n f) (hm : h'.min = h.min)
    (hn : h'.nelts = h.nelts) (hh : ∀ y, y ≠ x → h'.node y = h.node y) : Represents h' n f := by
  have hne : ∀ k, 1 ≤ k → k ≤ n → h'.node (f k) = h.node (f k) := fun k h1 hk =>
    hh _ fun hkx => hx ⟨k, ⟨h1, hk⟩, hkx⟩
  refine ⟨hn.trans hr.nelts, hm.trans hr.min, ?_, ?_, ?_, hr.inj⟩
  · intro k h1 hk
    rw [Heap.left, hne k h1 hk]
    exact hr.left k h1 hk
  · intro k h1 hk
    rw [Heap.right, hne k h1 hk]
    exact hr.right k h1 hk
  · intro k h1 hk
    rw [Heap.parent, hne k h1 hk]
    exact hr.parent k h1 hk

/-- `heap_insert` up to the walk: the new node is the last one. -/
theorem append (hr : Represents h n f) (hx : x ∉ elements n f) (hn : n + 1 < 2 ^ 32) :
    ∃ h', h.append x = some h' ∧ Represents h' (n + 1) (Function.update f (n + 1) x) := by
  have hr₁ : Represents (h.setNode x ⟨none, none, none⟩) n f :=
    hr.congr hx rfl rfl fun y hy => Function.update_of_ne hy ..
  have hpath := pathTo_reach (n := n + 1) (by omega) hn
  have htr := hr₁.traverse (k := (Heap.pathTo (n + 1)).2) (Heap.pathTo (n + 1)).1 1 .min le_rfl
    (by omega)
  rw [hpath, show slotAt f 1 = .min from if_pos rfl] at htr
  -- the slot before the last one is that of the parent
  have hparent : (h.setNode x ⟨none, none, none⟩).load
      (if (Heap.pathTo (n + 1)).2 = 0 then .min else slotAt f ((n + 1) / 2)) =
      occupant n f ((n + 1) / 2) := by
    split_ifs with hk
    · rw [hk, reach] at hpath
      obtain rfl : n = 0 := by omega
      exact hr₁.min
    · rcases Nat.eq_zero_or_pos n with rfl | hpos
      · exact absurd rfl hk
      · exact hr₁.load_slotAt (by omega) (by omega)
  have hmod : (1 + h.nelts) % 2 ^ 32 = n + 1 := by rw [hr.nelts, Nat.add_comm, Nat.mod_eq_of_lt hn]
  have hr₂ : Represents ((h.setNode x ⟨none, none, none⟩).setParent x (occupant n f ((n + 1) / 2))) n f :=
    hr₁.congr hx rfl rfl fun y hy => Function.update_of_ne hy ..
  refine ⟨_, ?_, hr₂.link hx (by simp) (by simp) (by simp)⟩
  have hmod' : (h.nelts + 1) % 2 ^ 32 = n + 1 := by rw [hr.nelts, Nat.mod_eq_of_lt hn]
  simp only [Heap.append, hmod, htr, hparent, Option.bind_eq_bind, Option.bind_some,
    Heap.store_nelts, Heap.setParent_nelts, Heap.setNode_nelts, hmod']
  rfl

/-- The first part of `heap_remove`. -/
theorem unlinkLast (hr : Represents h (n + 1) f) (hn : n + 1 < 2 ^ 32) :
    ∃ h', h.unlinkLast = some (h', f (n + 1)) ∧ Represents h' n f := by
  have hpath := pathTo_reach (n := n + 1) (by omega) hn
  have htr := hr.traverse (k := (Heap.pathTo (n + 1)).2) (Heap.pathTo (n + 1)).1 1 .min le_rfl
    (by omega)
  rw [hpath, show slotAt f 1 = .min from if_pos rfl] at htr
  refine ⟨_, ?_, hr.unlink⟩
  have hload : ({ h with nelts := n } : Heap A).load (slotAt f (n + 1)) = some (f (n + 1)) := by
    rw [Heap.load_nelts, hr.load_slotAt (by omega) (by omega), occupant_eq (by omega) le_rfl]
  simp only [Heap.unlinkLast, hr.nelts, htr, Option.bind_eq_bind, Option.bind_some,
    Nat.add_sub_cancel, hload, Heap.store_with_nelts]
  rfl

/-- `heap_remove` after the last node is unlinked: another node has its links. -/
theorem replace (hr : Represents h n f) (hx : x ∉ elements n f) (hi : 1 ≤ i) (hin : i ≤ n) :
    Represents (h.replace (f i) x) n (Function.update f i x) := by
  have hne : ∀ k, 1 ≤ k → k ≤ n → f k ≠ x := fun k h1 hk hkx => hx ⟨k, ⟨h1, hk⟩, hkx⟩
  have hix : f i ≠ x := hne i hi hin
  have hocc : ∀ k, occupant n (Function.update f i x) k = if k = i then some x else occupant n f k := by
    intro k
    by_cases hk : k = i
    · subst hk; simp [occupant, hi, hin]
    · simp [occupant, hk]
  have hoccx : ∀ k, occupant n f k ≠ some x := by
    intro k hk
    rw [occupant] at hk
    split_ifs at hk with h1
    exact hne k h1.1 h1.2 (Option.some.inj hk)
  have hself : ∀ k, 1 ≤ k → k ≤ n → (f k = f i ↔ k = i) := fun k h1 hk => hr.eq_iff h1 hk hi hin
  have hup : h.parent (f i) = occupant n f (i / 2) := hr.parent i hi hin
  -- what the links of `x` and of the nodes around it are before the link from above is set
  obtain ⟨g, hg⟩ : ∃ g, g = (((((h.setLeft x (h.left (f i))).setRight x (h.right (f i))).setParent x
    (h.parent (f i))).setParentOf (h.left (f i)) (some x)).setParentOf (h.right (f i)) (some x)) :=
    ⟨_, rfl⟩
  have hgl : ∀ y, g.left y = if y = x then occupant n f (2 * i) else h.left y := by
    intro y; simp [hg, hr.left i hi hin]
  have hgr : ∀ y, g.right y = if y = x then occupant n f (2 * i + 1) else h.right y := by
    intro y; simp [hg, hr.right i hi hin]
  have hgp : ∀ y, g.parent y = if occupant n f (2 * i + 1) = some y then some x
      else if occupant n f (2 * i) = some y then some x
      else if y = x then occupant n f (i / 2) else h.parent y := by
    intro y; simp [hg, hr.left i hi hin, hr.right i hi hin, hup]
  have hgup : g.parent (f i) = occupant n f (i / 2) := by
    simp only [hgp, hr.occupant_eq_some hi hin, hix, if_false, hup]
    split_ifs <;> first | rfl | omega
  have heq : h.replace (f i) x = g.relink (occupant n f (i / 2)) (f i) x := by
    rw [← hgup, hg, Heap.replace]
    simp [hix]
  rw [heq]
  have hocck : ∀ l k, 1 ≤ k → k ≤ n → (occupant n f l = some (f k) ↔ l = k) :=
    fun l k => hr.occupant_eq_some
  refine ⟨?_, ?_, ?_, ?_, ?_, ?_⟩
  · rw [Heap.relink_nelts, hg]
    simp [hr.nelts]
  · have hgm : g.min = occupant n f 1 := by simp [hg, hr.min]
    rw [Heap.relink_min, hocc, hgm]
    rcases Nat.lt_or_ge i 2 with h2 | h2
    · rw [occupant_eq_none (show ¬(1 ≤ i / 2 ∧ i / 2 ≤ n) by omega), if_pos rfl, if_pos (by omega)]
    · rw [occupant_eq (show 1 ≤ i / 2 by omega) (show i / 2 ≤ n by omega),
        if_neg (Option.some_ne_none _), if_neg (by omega)]
  · intro k h1 hk
    rw [Heap.relink_left, hocc]
    rcases eq_or_ne k i with rfl | hki
    · rw [Function.update_self, if_neg (by simp [hoccx]), hgl, if_pos rfl, if_neg (by omega)]
    · simp only [Function.update_of_ne hki, hgl, hocck _ _ h1 hk, hne k h1 hk, if_false, hr.left k h1 hk, hocck _ _ hi hin]
      split_ifs <;> first | rfl | omega
  · intro k h1 hk
    rw [Heap.relink_right, hocc]
    rcases eq_or_ne k i with rfl | hki
    · rw [Function.update_self, if_neg (by simp [hoccx]), hgr, if_pos rfl, if_neg (by omega)]
    · simp only [Function.update_of_ne hki, hgl, hgr, hocck _ _ h1 hk, hne k h1 hk, if_false, hr.left k h1 hk, hr.right k h1 hk, Ne, hocck _ _ hi hin]
      split_ifs <;> first | rfl | omega
  · intro k h1 hk
    rw [Heap.relink_parent, hocc, hgp]
    rcases eq_or_ne k i with rfl | hki
    · simp only [Function.update_self, hoccx, if_false, if_true]
      rw [if_neg (by omega)]
    · simp only [Function.update_of_ne hki, hocck _ _ h1 hk, hne k h1 hk, if_false, hr.parent k h1 hk]
      split_ifs <;> first | rfl | omega
  · exact injOn_update hr.inj (fun k _ hk _ => hk) fun k h1 hk _ => hne k h1 hk

/-! ### The walks -/

variable [LinearOrder κ] {key : A → κ} {lessThan : A → A → Bool} {d : ℕ}

/-- **A walk up ends, and the order is restored by it.** -/
theorem walkUp (hlt : ∀ a b, lessThan a b = true ↔ key a < key b) (hr : Represents h n f)
    (ho : SettledBelow key n f i) (h1 : 1 ≤ i) (hi : i ≤ n) (hfuel : i < 2 ^ d) :
    ∃ h' f', Heap.walkUp lessThan d h (f i) = some h' ∧ Represents h' n f' ∧
      HeapOrdered key n f' ∧ elements n f' = elements n f := by
  induction d generalizing h f i with
  | zero => omega
  | succ d ih =>
    rw [Heap.walkUp, hr.parent i h1 hi]
    rcases Nat.lt_or_ge i 2 with h2 | h2
    · rw [occupant_eq_none (by omega)]
      exact ⟨h, f, rfl, hr, ho.ordered fun hc => by omega, rfl⟩
    rw [occupant_eq (by omega) (by omega)]
    by_cases hless : lessThan (f i) (f (i / 2)) = true
    · obtain ⟨h', f', hw, hr', ho', he⟩ := ih (hr.heapNodeSwap h2 hi)
        (ho.swapUp h2 hi ((hlt _ _).1 hless)) (by omega) (by omega)
        (by rw [Nat.pow_succ] at hfuel; omega)
      rw [exchange_left] at hw
      refine ⟨h', f', by simpa only [hless, if_true] using hw, hr', ho', he.trans ?_⟩
      exact elements_exchange ⟨by omega, by omega⟩ ⟨h1, hi⟩
    · refine ⟨h, f, by simp [hless], hr, ho.ordered fun _ => not_lt.1 fun hc => ?_, rfl⟩
      exact hless ((hlt _ _).2 hc)

omit [DecidableEq A] in
/-- A node is the least of itself and its children, or the smaller of its children is less. -/
theorem smallest_cases (hlt : ∀ a b, lessThan a b = true ↔ key a < key b) (hr : Represents h n f)
    (h1 : 1 ≤ i) (hi : i ≤ n) :
    (h.smallest lessThan (f i) = f i ∧ ∀ k, k ≤ n → k / 2 = i → key (f i) ≤ key (f k)) ∨
    ∃ j, h.smallest lessThan (f i) = f j ∧ j ≤ n ∧ j / 2 = i ∧ key (f j) < key (f i) ∧
      ∀ k, k ≤ n → k / 2 = i → key (f j) ≤ key (f k) := by
  have hchild : ∀ k, k / 2 = i → k = 2 * i ∨ k = 2 * i + 1 := fun k hk => by omega
  rw [Heap.smallest, hr.left i h1 hi, hr.right i h1 hi]
  rcases Nat.lt_or_ge n (2 * i) with hn | hn
  · rw [occupant_eq_none (by omega), occupant_eq_none (by omega)]
    exact Or.inl ⟨rfl, fun k hk hki => by omega⟩
  rw [occupant_eq (show 1 ≤ 2 * i by omega) hn]
  rcases Nat.lt_or_ge n (2 * i + 1) with hn' | hn'
  · rw [occupant_eq_none (by omega)]
    have honly : ∀ k, k ≤ n → k / 2 = i → k = 2 * i := fun k hk hki => by omega
    by_cases hl : lessThan (f (2 * i)) (f i) = true
    · refine Or.inr ⟨2 * i, by simp [hl], hn, by omega, (hlt _ _).1 hl, ?_⟩
      exact fun k hk hki => (congrArg (key ∘ f) (honly k hk hki)).ge
    · refine Or.inl ⟨by simp [hl], fun k hk hki => ?_⟩
      rw [honly k hk hki]
      exact not_lt.1 fun hc => hl ((hlt _ _).2 hc)
  rw [occupant_eq (show 1 ≤ 2 * i + 1 by omega) hn']
  have hle : ∀ a b, ¬lessThan a b = true → key b ≤ key a := fun a b hab =>
    not_lt.1 fun hc => hab ((hlt _ _).2 hc)
  by_cases hl : lessThan (f (2 * i)) (f i) = true
  · have hli := (hlt _ _).1 hl
    by_cases hrl : lessThan (f (2 * i + 1)) (f (2 * i)) = true
    · have hrli := (hlt _ _).1 hrl
      refine Or.inr ⟨2 * i + 1, by simp [hl, hrl], hn', by omega, hrli.trans hli, ?_⟩
      intro k _ hki
      rcases hchild k hki with rfl | rfl
      exacts [hrli.le, le_rfl]
    · refine Or.inr ⟨2 * i, by simp [hl, hrl], hn, by omega, hli, ?_⟩
      intro k _ hki
      rcases hchild k hki with rfl | rfl
      exacts [le_rfl, hle _ _ hrl]
  · by_cases hri : lessThan (f (2 * i + 1)) (f i) = true
    · have hrii := (hlt _ _).1 hri
      refine Or.inr ⟨2 * i + 1, by simp [hl, hri], hn', by omega, hrii, ?_⟩
      intro k _ hki
      rcases hchild k hki with rfl | rfl
      exacts [hrii.le.trans (hle _ _ hl), le_rfl]
    · refine Or.inl ⟨by simp [hl, hri], fun k _ hki => ?_⟩
      rcases hchild k hki with rfl | rfl
      exacts [hle _ _ hl, hle _ _ hri]

/-- **A walk down ends, and the order is restored below the node.** -/
theorem walkDown (hlt : ∀ a b, lessThan a b = true ↔ key a < key b) (hr : Represents h n f)
    (ho : Loose key n f i) (h1 : 1 ≤ i) (hi : i ≤ n) (hfuel : n < i * 2 ^ d) :
    ∃ h' f' j, Heap.walkDown lessThan d h (f i) = some h' ∧ Represents h' n f' ∧
      SettledBelow key n f' j ∧ f' j = f i ∧ 1 ≤ j ∧ j ≤ n ∧ elements n f' = elements n f := by
  induction d generalizing h f i with
  | zero => omega
  | succ d ih =>
    rw [Heap.walkDown]
    obtain ⟨hs, hmin⟩ | ⟨j, hs, hj, hji, hless, hmin⟩ := hr.smallest_cases hlt h1 hi
    · exact ⟨h, f, i, by simp only [hs, if_true], hr, ⟨ho, hmin⟩, rfl, h1, hi, rfl⟩
    · have hne : f j ≠ f i := fun hc => hless.ne (congrArg key hc)
      have hfuel' : n < j * 2 ^ d := by
        rw [Nat.pow_succ'] at hfuel
        have : i * (2 * 2 ^ d) ≤ j * 2 ^ d := by
          rw [← Nat.mul_assoc]
          exact Nat.mul_le_mul_right _ (by omega)
        omega
      have hswap := hr.heapNodeSwap (c := j) (by omega) hj
      rw [hji] at hswap
      obtain ⟨h', f', j', hw, hr', ho', hj', h1', hn', he⟩ := ih hswap
        (ho.swapDown h1 hj hji hless hmin) (by omega) hj hfuel'
      rw [exchange_right] at hw hj'
      refine ⟨h', f', j', by simpa only [hs, hne, if_false] using hw, hr', ho', hj', h1', hn', ?_⟩
      exact he.trans (elements_exchange ⟨h1, hi⟩ ⟨by omega, hj⟩)

end Represents

/-! ### The heap as a set of elements in order -/

/-- The heap holds the elements of `s`, in the order of `key`. -/
def IsHeap [LinearOrder κ] (key : A → κ) (h : Heap A) (s : Set A) : Prop :=
  ∃ n f, n < 2 ^ 32 ∧ Represents h n f ∧ HeapOrdered key n f ∧ elements n f = s

namespace IsHeap

variable [LinearOrder κ] {key : A → κ} {lessThan : A → A → Bool} {s : Set A}

theorem heapInit [Nonempty A] (key : A → κ) (h : Heap A) : IsHeap key h.heapInit ∅ := by
  refine ⟨0, fun _ => Classical.arbitrary A, Nat.two_pow_pos 32, ?_, ?_, by simp [elements]⟩
  · refine ⟨rfl, rfl, ?_, ?_, ?_, ?_⟩
    · intro k h1 hk; omega
    · intro k h1 hk; omega
    · intro k h1 hk; omega
    · rintro k ⟨h1, hk⟩; omega
  · intro k h2 hk; omega

/-- **`heap_min` is a least element**, and there is none only when the heap is empty. -/
theorem heapMin (hh : IsHeap key h s) :
    (∀ a, h.heapMin = some a → a ∈ s ∧ ∀ b ∈ s, key a ≤ key b) ∧ (h.heapMin = none ↔ s = ∅) := by
  obtain ⟨n, f, -, hr, ho, rfl⟩ := hh
  rw [Heap.heapMin, hr.min]
  rcases Nat.eq_zero_or_pos n with rfl | hn
  · have hempty : elements 0 f = ∅ := by simp [elements]
    simp [occupant, hempty]
  · rw [occupant_eq le_rfl hn]
    refine ⟨?_, by simp, fun hc => absurd (hc ▸ ⟨1, ⟨le_rfl, hn⟩, rfl⟩ : f 1 ∈ (∅ : Set A)) (by simp)⟩
    rintro a ⟨rfl⟩
    refine ⟨⟨1, ⟨le_rfl, hn⟩, rfl⟩, ?_⟩
    rintro _ ⟨k, ⟨h1, hk⟩, rfl⟩
    exact ho.root_le h1 hk

theorem nelts (hh : IsHeap key h s) : h.nelts = s.ncard := by
  obtain ⟨n, f, -, hr, -, rfl⟩ := hh
  have hcard : (Set.Icc 1 n).ncard = n := by
    rw [Set.ncard_eq_toFinset_card', Set.toFinset_Icc, Nat.card_Icc, Nat.add_sub_cancel]
  rw [elements, hr.inj.ncard_image, hr.nelts, hcard]

/-- Only the keys of the elements matter. -/
theorem congr {key' : A → κ} (hh : IsHeap key h s) (hk : ∀ a ∈ s, key' a = key a) : IsHeap key' h s := by
  obtain ⟨n, f, hn, hr, ho, rfl⟩ := hh
  refine ⟨n, f, hn, hr, fun k h2 hkn => ?_, rfl⟩
  rw [hk _ ⟨k / 2, ⟨by omega, by omega⟩, rfl⟩, hk _ ⟨k, ⟨by omega, hkn⟩, rfl⟩]
  exact ho k h2 hkn

variable [DecidableEq A]

/-- **An insertion follows no `NULL` link, and adds the node.** -/
theorem heapInsert (hlt : ∀ a b, lessThan a b = true ↔ key a < key b) (hh : IsHeap key h s)
    (hx : x ∉ s) (hn : h.nelts + 1 < 2 ^ 32) :
    ∃ h', h.heapInsert lessThan x = some h' ∧ IsHeap key h' (insert x s) := by
  obtain ⟨n, f, -, hr, ho, rfl⟩ := hh
  rw [hr.nelts] at hn
  obtain ⟨h', ha, hr'⟩ := hr.append hx hn
  have hlast : Function.update f (n + 1) x (n + 1) = x := Function.update_self ..
  obtain ⟨h'', f', hw, hr'', ho'', he⟩ := hr'.walkUp (d := 32) hlt (ho.append x) (by omega) le_rfl hn
  rw [hlast] at hw
  refine ⟨h'', ?_, n + 1, f', hn, hr'', ho'', he.trans (elements_append f n x)⟩
  rw [Heap.heapInsert, ha, Option.bind_eq_bind, Option.bind_some, hw]

/-- **A removal follows no `NULL` link, and takes the node out.** -/
theorem heapRemove (hlt : ∀ a b, lessThan a b = true ↔ key a < key b) (hh : IsHeap key h s)
    (hx : x ∈ s) :
    ∃ h', h.heapRemove lessThan x = some h' ∧ IsHeap key h' (s \ {x}) := by
  obtain ⟨n, f, hn, hr, ho, rfl⟩ := hh
  obtain ⟨i, ⟨h1, hi⟩, rfl⟩ := hx
  obtain ⟨n, rfl⟩ : ∃ m, n = m + 1 := ⟨n - 1, by omega⟩
  obtain ⟨h', hu, hr'⟩ := hr.unlinkLast hn
  have hnelts : h.nelts ≠ 0 := by rw [hr.nelts]; omega
  rw [Heap.heapRemove, if_neg hnelts, hu, Option.bind_eq_bind, Option.bind_some]
  rcases eq_or_ne i (n + 1) with rfl | hin
  · -- the node is the last one
    have hmin : h'.min ≠ some (f (n + 1)) := by
      rw [hr'.min, occupant]
      split_ifs with hn1
      · rw [Ne, Option.some.injEq, hr.eq_iff le_rfl (by omega) (by omega) le_rfl]
        omega
      · exact fun hc => by cases hc
    refine ⟨h', by simp [hmin], n, f, by omega, hr', ho.dropLast, elements_dropLast hr.inj⟩
  · have hne : f (n + 1) ≠ f i := fun hc => hin (hr.inj ⟨by omega, le_rfl⟩ ⟨h1, hi⟩ hc).symm
    have hfresh : f (n + 1) ∉ elements n f := by
      rw [elements_dropLast hr.inj]
      simp
    have hself : Function.update f i (f (n + 1)) i = f (n + 1) := Function.update_self ..
    obtain ⟨h₂, f₂, j, hw, hr₂, ho₂, hj, hj1, hjn, he⟩ := (hr'.replace hfresh h1 (by omega)).walkDown
      (d := 32) hlt (ho.replace (f (n + 1)) i) h1 (by omega) (by omega)
    obtain ⟨h₃, f₃, hw', hr₃, ho₃, he'⟩ := hr₂.walkUp (d := 32) hlt ho₂ hj1 hjn (by omega)
    rw [hself] at hw hj
    rw [hj] at hw'
    refine ⟨h₃, by simp [hne, hw, hw'], n, f₃, by omega, hr₃, ho₃, ?_⟩
    rw [he', he, elements_replace hr.inj h1 (by omega)]

end IsHeap

/-! ### Runs -/

/-- A call of `heap_insert` or of `heap_remove`. -/
inductive HeapOp (A : Type*) where
  | insert (newnode : A)
  | remove (node : A)

namespace HeapOp

/-- The elements after a call. -/
def effect (s : Set A) : HeapOp A → Set A
  | insert a => Insert.insert a s
  | remove a => s \ {a}

/-- A new node is none of the heap, and fits into its `unsigned int`; one that is removed is. -/
def Fits (s : Set A) : HeapOp A → Prop
  | insert a => a ∉ s ∧ s.ncard + 1 < 2 ^ 32
  | remove a => a ∈ s

/-- Each call of a run fits. -/
def Admissible : Set A → List (HeapOp A) → Prop
  | _, [] => True
  | s, op :: ops => op.Fits s ∧ Admissible (op.effect s) ops

/-- The call. -/
def run [DecidableEq A] (lessThan : A → A → Bool) (h : Heap A) : HeapOp A → Option (Heap A)
  | insert a => h.heapInsert lessThan a
  | remove a => h.heapRemove lessThan a

variable [LinearOrder κ] [DecidableEq A] {key : A → κ} {lessThan : A → A → Bool} {s : Set A}
  {ops : List (HeapOp A)}

theorem run_isHeap (hlt : ∀ a b, lessThan a b = true ↔ key a < key b) (hh : IsHeap key h s)
    (hops : Admissible s ops) :
    ∃ h', ops.foldlM (run lessThan) h = some h' ∧ IsHeap key h' (ops.foldl effect s) := by
  induction ops generalizing h s with
  | nil => exact ⟨h, rfl, hh⟩
  | cons op ops ih =>
    obtain ⟨hfits, hrest⟩ := hops
    obtain ⟨h₁, hrun, hh₁⟩ : ∃ h₁, op.run lessThan h = some h₁ ∧ IsHeap key h₁ (op.effect s) := by
      cases op with
      | insert a => exact hh.heapInsert hlt hfits.1 (hh.nelts ▸ hfits.2)
      | remove a => exact hh.heapRemove hlt hfits
    obtain ⟨h', hrun', hh'⟩ := ih hh₁ hrest
    exact ⟨h', by rw [List.foldlM_cons, hrun]; exact hrun', hh'⟩

/-- **Every run of insertions and removals succeeds**, following no `NULL` link, and the heap holds what
was inserted and not removed: `heap_min` is the least of it. -/
theorem run_heapInit [Nonempty A] (hlt : ∀ a b, lessThan a b = true ↔ key a < key b) (h : Heap A)
    (hops : Admissible ∅ ops) :
    ∃ h', ops.foldlM (run lessThan) h.heapInit = some h' ∧ IsHeap key h' (ops.foldl effect ∅) ∧
      h'.nelts = (ops.foldl effect ∅).ncard ∧ (h'.heapMin = none ↔ ops.foldl effect ∅ = ∅) ∧
      ∀ a, h'.heapMin = some a →
        a ∈ ops.foldl effect ∅ ∧ ∀ b ∈ ops.foldl effect ∅, key a ≤ key b := by
  obtain ⟨h', hrun, hh'⟩ := run_isHeap hlt (IsHeap.heapInit key h) hops
  exact ⟨h', hrun, hh', hh'.nelts, hh'.heapMin.2, hh'.heapMin.1⟩

theorem run_heapInit_three : ∃ h' : Heap ℕ, [insert 3, insert 1, remove 3].foldlM
      (run fun a b => decide (a < b)) (Heap.heapInit ⟨none, 0, fun _ => ⟨none, none, none⟩⟩) = some h' ∧
    IsHeap id h' {1} ∧ h'.nelts = 1 := by
  have heff : [insert 3, insert 1, remove 3].foldl effect (∅ : Set ℕ) = {1} := by
    ext a
    simp [effect]
  have hops : Admissible (∅ : Set ℕ) [insert 3, insert 1, remove 3] := by
    simp [Admissible, Fits, effect]
  obtain ⟨h', hrun, hh', hn, -, -⟩ := run_heapInit
    (show ∀ a b : ℕ, decide (a < b) = true ↔ id a < id b from fun a b => by simp)
    ⟨none, 0, fun _ => ⟨none, none, none⟩⟩ hops
  exact ⟨h', hrun, heff ▸ hh', by rw [hn, heff, Set.ncard_singleton]⟩

end HeapOp

end SimpleUv.Libuv
