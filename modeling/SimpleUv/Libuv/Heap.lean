import Mathlib.Tactic.NormNum
import SimpleUv.Foundations.BinaryHeap

/-!
# The heap of `heap-inl.h`

The heap of libuv is a binary tree of nodes linked by pointers that live inside the elements. Here a
memory maps each address to its node, `NULL` is `none`, and a pointer to a pointer (`heap_insert` and
`heap_remove` walk down the tree with one) is a `Slot`: the place in the heap or in a node that holds a
link. Following a `NULL` link fails.

`Represents h n f` says that the links of `h` are those of the arrangement `f` of `n` nodes by position. A
`heapNodeSwap` of a node and its parent is the exchange of their positions (`Represents.heapNodeSwap`), and
the path that is read off the bits of a position leads from the root to it (`Represents.traverse`).
-/

namespace SimpleUv.Libuv

open Foundations

variable {A : Type*}

/-- The links of a node: `struct heap_node`. -/
structure HeapNode (A : Type*) where
  left : Option A
  right : Option A
  parent : Option A
  deriving DecidableEq, Repr

/-- The heap, and the memory its nodes are in: `struct heap`. -/
structure Heap (A : Type*) where
  min : Option A
  /-- An `unsigned int`. -/
  nelts : ℕ
  node : A → HeapNode A

/-- What a `struct heap_node**` points to: a place in the heap or in a node that holds a link. -/
inductive Slot (A : Type*) where
  | min
  | left (a : A)
  | right (a : A)
  deriving DecidableEq

namespace Heap

def left (h : Heap A) (a : A) : Option A := (h.node a).left
def right (h : Heap A) (a : A) : Option A := (h.node a).right
def parent (h : Heap A) (a : A) : Option A := (h.node a).parent

variable [DecidableEq A]

/-- `*a = v`. -/
def setNode (h : Heap A) (a : A) (v : HeapNode A) : Heap A :=
  { h with node := Function.update h.node a v }

/-- `a->left = v`. -/
def setLeft (h : Heap A) (a : A) (v : Option A) : Heap A := h.setNode a { h.node a with left := v }

/-- `a->right = v`. -/
def setRight (h : Heap A) (a : A) (v : Option A) : Heap A := h.setNode a { h.node a with right := v }

/-- `a->parent = v`. -/
def setParent (h : Heap A) (a : A) (v : Option A) : Heap A := h.setNode a { h.node a with parent := v }

/-- `if (a != NULL) a->parent = v`. -/
def setParentOf (h : Heap A) (a : Option A) (v : Option A) : Heap A :=
  match a with
  | none => h
  | some a => h.setParent a v

/-- `heap_init`. -/
def heapInit (h : Heap A) : Heap A := { h with min := none, nelts := 0 }

/-- `heap_min`. -/
def heapMin (h : Heap A) : Option A := h.min

/-- The link to `old` from above, that is from its parent `up` or from the heap, goes to `new`. -/
def relink (h : Heap A) (up : Option A) (old new : A) : Heap A :=
  match up with
  | none => { h with min := some new }
  | some g => if h.left g = some old then h.setLeft g (some new) else h.setRight g (some new)

/-- `heap_node_swap` up to the link from above: the contents of the two nodes are exchanged, the one is
made a child of the other, and the three nodes below them get their new parents. -/
def exchangeNodes (h : Heap A) (parent child : A) : Heap A :=
  let t := h.node parent
  let h := h.setNode parent (h.node child)
  let h := h.setNode child t
  let h := h.setParent parent (some child)
  let isLeft := h.left child = some child
  let sibling := if isLeft then h.right child else h.left child
  let h := if isLeft then h.setLeft child (some parent) else h.setRight child (some parent)
  let h := h.setParentOf sibling (some child)
  let h := h.setParentOf (h.left parent) (some parent)
  h.setParentOf (h.right parent) (some parent)

/-- `heap_node_swap`: `parent` and its child `child` change places. -/
def heapNodeSwap (h : Heap A) (parent child : A) : Heap A :=
  let h := h.exchangeNodes parent child
  h.relink (h.parent child) parent child

/-- `*s`. -/
def load (h : Heap A) : Slot A → Option A
  | .min => h.min
  | .left a => h.left a
  | .right a => h.right a

/-- `*s = v`. -/
def store (h : Heap A) (s : Slot A) (v : Option A) : Heap A :=
  match s with
  | .min => { h with min := v }
  | .left a => h.setLeft a v
  | .right a => h.setRight a v

/-- The loop `for (k = 0; n >= 2; k += 1, n /= 2) path = (path << 1) | (n & 1)`: the turns on the way to
position `n`, the first one in the last bit, and their number. -/
def pathLoop : ℕ → ℕ → ℕ → ℕ → ℕ × ℕ
  | 0, path, k, _ => (path, k)
  | fuel + 1, path, k, n =>
    if 2 ≤ n then pathLoop fuel ((2 * path) % 2 ^ 32 + n % 2) (k + 1) (n / 2) else (path, k)

/-- The path to a position. An `unsigned int` can be halved 31 times. -/
def pathTo (n : ℕ) : ℕ × ℕ := pathLoop 31 0 0 n

/-- The loop `while (k > 0)` that takes the turns of the path: the last two slots on the way. -/
def traverse (h : Heap A) : ℕ → ℕ → Slot A → Slot A → Option (Slot A × Slot A)
  | 0, _, parent, child => some (parent, child)
  | k + 1, path, _, child => do
    let a ← h.load child
    h.traverse k (path / 2) child (if path % 2 = 1 then .right a else .left a)

/-- The loop that moves a node up: `while (a->parent != NULL && less_than(a, a->parent))`. -/
def walkUp (lessThan : A → A → Bool) : ℕ → Heap A → A → Option (Heap A)
  | 0, _, _ => none
  | fuel + 1, h, a =>
    match h.parent a with
    | none => some h
    | some p => if lessThan a p then walkUp lessThan fuel (h.heapNodeSwap p a) a else some h

/-- The least of a node and its children. -/
def smallest (h : Heap A) (lessThan : A → A → Bool) (child : A) : A :=
  let smallest := child
  let smallest := match h.left child with
    | some l => if lessThan l smallest then l else smallest
    | none => smallest
  match h.right child with
  | some r => if lessThan r smallest then r else smallest
  | none => smallest

/-- The loop `for (;;)` that moves a node down. -/
def walkDown (lessThan : A → A → Bool) : ℕ → Heap A → A → Option (Heap A)
  | 0, _, _ => none
  | fuel + 1, h, child =>
    let smallest := h.smallest lessThan child
    if smallest = child then some h
    else walkDown lessThan fuel (h.heapNodeSwap child smallest) child

/-- `heap_insert` up to the walk. -/
def append (h : Heap A) (newnode : A) : Option (Heap A) := do
  let h := h.setNode newnode ⟨none, none, none⟩
  let (path, k) := pathTo ((1 + h.nelts) % 2 ^ 32)
  let (parent, child) ← h.traverse k path .min .min
  let h := h.setParent newnode (h.load parent)
  let h := h.store child (some newnode)
  return { h with nelts := (h.nelts + 1) % 2 ^ 32 }

/-- `heap_insert`. The walk takes no more turns than there are bits in the number of nodes. -/
def heapInsert (lessThan : A → A → Bool) (h : Heap A) (newnode : A) : Option (Heap A) := do
  let h ← h.append newnode
  walkUp lessThan 32 h newnode

/-- The first part of `heap_remove`: the last node is unlinked. -/
def unlinkLast (h : Heap A) : Option (Heap A × A) := do
  let (path, k) := pathTo h.nelts
  let (_, max) ← h.traverse k path .min .min
  let h := { h with nelts := h.nelts - 1 }
  let child ← h.load max
  return (h.store max none, child)

/-- The second part of `heap_remove`: `child` replaces `node`. -/
def replace (h : Heap A) (node child : A) : Heap A :=
  let h := h.setLeft child (h.left node)
  let h := h.setRight child (h.right node)
  let h := h.setParent child (h.parent node)
  let h := h.setParentOf (h.left child) (some child)
  let h := h.setParentOf (h.right child) (some child)
  h.relink (h.parent node) node child

/-- `heap_remove`. -/
def heapRemove (lessThan : A → A → Bool) (h : Heap A) (node : A) : Option (Heap A) :=
  if h.nelts = 0 then some h
  else do
    let (h, child) ← h.unlinkLast
    if child = node then
      return if h.min = some child then { h with min := none } else h
    let h := h.replace node child
    let h ← walkDown lessThan 32 h child
    walkUp lessThan 32 h child

/-! The fields after a write. -/

variable {h : Heap A} {a x y : A} {v : Option A} {w : HeapNode A}

@[simp] theorem setNode_left : (h.setNode a w).left x = if x = a then w.left else h.left x := by
  by_cases hx : x = a <;> simp [setNode, left, hx]

@[simp] theorem setNode_right : (h.setNode a w).right x = if x = a then w.right else h.right x := by
  by_cases hx : x = a <;> simp [setNode, right, hx]

@[simp] theorem setNode_parent :
    (h.setNode a w).parent x = if x = a then w.parent else h.parent x := by
  by_cases hx : x = a <;> simp [setNode, parent, hx]

@[simp] theorem setNode_min : (h.setNode a w).min = h.min := rfl
@[simp] theorem setNode_nelts : (h.setNode a w).nelts = h.nelts := rfl

@[simp] theorem setLeft_left : (h.setLeft a v).left x = if x = a then v else h.left x := by
  simp [setLeft]

@[simp] theorem setLeft_right : (h.setLeft a v).right x = h.right x := by
  rw [setLeft, setNode_right]
  split_ifs with hx <;> simp [right, hx]

@[simp] theorem setLeft_parent : (h.setLeft a v).parent x = h.parent x := by
  rw [setLeft, setNode_parent]
  split_ifs with hx <;> simp [parent, hx]

@[simp] theorem setLeft_min : (h.setLeft a v).min = h.min := rfl
@[simp] theorem setLeft_nelts : (h.setLeft a v).nelts = h.nelts := rfl

@[simp] theorem setRight_left : (h.setRight a v).left x = h.left x := by
  rw [setRight, setNode_left]
  split_ifs with hx <;> simp [left, hx]

@[simp] theorem setRight_right : (h.setRight a v).right x = if x = a then v else h.right x := by
  simp [setRight]

@[simp] theorem setRight_parent : (h.setRight a v).parent x = h.parent x := by
  rw [setRight, setNode_parent]
  split_ifs with hx <;> simp [parent, hx]

@[simp] theorem setRight_min : (h.setRight a v).min = h.min := rfl
@[simp] theorem setRight_nelts : (h.setRight a v).nelts = h.nelts := rfl

@[simp] theorem setParent_left : (h.setParent a v).left x = h.left x := by
  rw [setParent, setNode_left]
  split_ifs with hx <;> simp [left, hx]

@[simp] theorem setParent_right : (h.setParent a v).right x = h.right x := by
  rw [setParent, setNode_right]
  split_ifs with hx <;> simp [right, hx]

@[simp] theorem setParent_parent : (h.setParent a v).parent x = if x = a then v else h.parent x := by
  simp [setParent]

@[simp] theorem setParent_min : (h.setParent a v).min = h.min := rfl
@[simp] theorem setParent_nelts : (h.setParent a v).nelts = h.nelts := rfl

variable {o : Option A}

@[simp] theorem setParentOf_left : (h.setParentOf o v).left x = h.left x := by
  cases o <;> simp [setParentOf]

@[simp] theorem setParentOf_right : (h.setParentOf o v).right x = h.right x := by
  cases o <;> simp [setParentOf]

@[simp] theorem setParentOf_parent :
    (h.setParentOf o v).parent x = if o = some x then v else h.parent x := by
  cases o <;> simp [setParentOf, eq_comm]

@[simp] theorem setParentOf_min : (h.setParentOf o v).min = h.min := by
  cases o <;> rfl

@[simp] theorem setParentOf_nelts : (h.setParentOf o v).nelts = h.nelts := by
  cases o <;> rfl

variable {p c : A}

theorem relink_left : (h.relink o a x).left y =
    if o = some y ∧ h.left y = some a then some x else h.left y := by
  cases o with
  | none => simp [relink, left]
  | some g =>
    by_cases hg : h.left g = some a
    · by_cases hy : y = g
      · simp [relink, hg, hy]
      · simp [relink, hg, hy, Ne.symm hy]
    · by_cases hy : y = g
      · simp [relink, hg, hy]
      · simp [relink, hg, Ne.symm hy]

theorem relink_right : (h.relink o a x).right y =
    if o = some y ∧ h.left y ≠ some a then some x else h.right y := by
  cases o with
  | none => simp [relink, right]
  | some g =>
    by_cases hg : h.left g = some a
    · by_cases hy : y = g
      · simp [relink, hg, hy]
      · simp [relink, hg, Ne.symm hy]
    · by_cases hy : y = g
      · simp [relink, hg, hy]
      · simp [relink, hg, hy, Ne.symm hy]

@[simp] theorem relink_parent : (h.relink o a x).parent y = h.parent y := by
  cases o with
  | none => rfl
  | some g => by_cases hg : h.left g = some a <;> simp [relink, hg]

@[simp] theorem relink_nelts : (h.relink o a x).nelts = h.nelts := by
  cases o with
  | none => rfl
  | some g => by_cases hg : h.left g = some a <;> simp [relink, hg]

theorem relink_min : (h.relink o a x).min = if o = none then some x else h.min := by
  cases o with
  | none => rfl
  | some g => by_cases hg : h.left g = some a <;> simp [relink, hg]

theorem exchangeNodes_left : (h.exchangeNodes p c).left x =
    if x = c then (if h.left p = some c then some p else h.left p)
    else if x = p then h.left c else h.left x := by
  have hlp : (h.node p).left = h.left p := rfl
  have hlc : (h.node c).left = h.left c := rfl
  by_cases hl : h.left p = some c <;> simp [exchangeNodes, hlp, hlc, hl]
  split_ifs <;> rfl

theorem exchangeNodes_right : (h.exchangeNodes p c).right x =
    if x = c then (if h.left p = some c then h.right p else some p)
    else if x = p then h.right c else h.right x := by
  have hlp : (h.node p).left = h.left p := rfl
  have hrp : (h.node p).right = h.right p := rfl
  have hrc : (h.node c).right = h.right c := rfl
  by_cases hl : h.left p = some c <;> simp [exchangeNodes, hlp, hrp, hrc, hl]
  split_ifs <;> rfl

/-- The nodes below the two get new parents, the lower of the two the parent of the upper one. -/
theorem exchangeNodes_parent (hpc : p ≠ c) : (h.exchangeNodes p c).parent x =
    if h.right c = some x then some p
    else if h.left c = some x then some p
    else if (if h.left p = some c then h.right p else h.left p) = some x then some c
    else if x = p then some c else if x = c then h.parent p else h.parent x := by
  have hlp : (h.node p).left = h.left p := rfl
  have hrp : (h.node p).right = h.right p := rfl
  have hlc : (h.node c).left = h.left c := rfl
  have hrc : (h.node c).right = h.right c := rfl
  have hup : (h.node p).parent = h.parent p := rfl
  by_cases hl : h.left p = some c <;> simp [exchangeNodes, hlp, hrp, hlc, hrc, hup, hl, hpc]
  all_goals split_ifs <;> rfl

variable {l : Slot A}

@[simp] theorem store_left : (h.store l v).left x = if l = .left x then v else h.left x := by
  cases l with
  | min => simp [store, left]
  | left a => simp [store, eq_comm]
  | right a => simp [store]

@[simp] theorem store_right : (h.store l v).right x = if l = .right x then v else h.right x := by
  cases l with
  | min => simp [store, right]
  | left a => simp [store]
  | right a => simp [store, eq_comm]

@[simp] theorem store_parent : (h.store l v).parent x = h.parent x := by
  cases l with
  | min => rfl
  | left a => simp [store]
  | right a => simp [store]

@[simp] theorem store_min : (h.store l v).min = if l = .min then v else h.min := by
  cases l <;> simp [store]

@[simp] theorem store_nelts : (h.store l v).nelts = h.nelts := by
  cases l <;> rfl

theorem store_with_nelts (m : ℕ) :
    ({ h with nelts := m } : Heap A).store l v = { h.store l v with nelts := m } := by
  cases l <;> rfl

omit [DecidableEq A] in
theorem load_nelts (m : ℕ) : ({ h with nelts := m } : Heap A).load l = h.load l := by
  cases l <;> rfl

@[simp] theorem exchangeNodes_min : (h.exchangeNodes p c).min = h.min := by
  by_cases hl : (h.node p).left = some c <;> simp [exchangeNodes, hl]

@[simp] theorem exchangeNodes_nelts : (h.exchangeNodes p c).nelts = h.nelts := by
  by_cases hl : (h.node p).left = some c <;> simp [exchangeNodes, hl]

end Heap

/-- The node at a position, if there is one. -/
def occupant (n : ℕ) (f : ℕ → A) (k : ℕ) : Option A := if 1 ≤ k ∧ k ≤ n then some (f k) else none

/-- The links are those of the arrangement `f` of `n` nodes: the children of position `k` are at `2 k` and
`2 k + 1`. -/
structure Represents (h : Heap A) (n : ℕ) (f : ℕ → A) : Prop where
  nelts : h.nelts = n
  min : h.min = occupant n f 1
  left : ∀ k, 1 ≤ k → k ≤ n → h.left (f k) = occupant n f (2 * k)
  right : ∀ k, 1 ≤ k → k ≤ n → h.right (f k) = occupant n f (2 * k + 1)
  parent : ∀ k, 1 ≤ k → k ≤ n → h.parent (f k) = occupant n f (k / 2)
  inj : Set.InjOn f (Set.Icc 1 n)

variable {h : Heap A} {n i j k c : ℕ} {f : ℕ → A}

@[simp] theorem occupant_eq (h1 : 1 ≤ k) (hn : k ≤ n) : occupant n f k = some (f k) :=
  if_pos ⟨h1, hn⟩

theorem occupant_eq_none (hk : ¬(1 ≤ k ∧ k ≤ n)) : occupant n f k = none := if_neg hk

theorem occupant_exchange (hi : 1 ≤ i) (hin : i ≤ n) (hj : 1 ≤ j) (hjn : j ≤ n) :
    occupant n (exchange f i j) k =
      if k = i then some (f j) else if k = j then some (f i) else occupant n f k := by
  rcases eq_or_ne k i with rfl | hki
  · simp [occupant_eq hi hin]
  rcases eq_or_ne k j with rfl | hkj
  · simp [occupant_eq hj hjn, hki]
  · simp [occupant, exchange_of_ne hki hkj, hki, hkj]

namespace Represents

theorem eq_iff (hr : Represents h n f) (hi : 1 ≤ i) (hin : i ≤ n) (hj : 1 ≤ j) (hjn : j ≤ n) :
    f i = f j ↔ i = j :=
  ⟨fun hij => hr.inj ⟨hi, hin⟩ ⟨hj, hjn⟩ hij, congrArg f⟩

theorem occupant_eq_some (hr : Represents h n f) (hj : 1 ≤ j) (hjn : j ≤ n) :
    occupant n f i = some (f j) ↔ i = j := by
  by_cases hi : 1 ≤ i ∧ i ≤ n
  · rw [occupant_eq hi.1 hi.2, Option.some.injEq, hr.eq_iff hi.1 hi.2 hj hjn]
  · rw [occupant_eq_none hi]
    constructor
    · intro hc; cases hc
    · rintro rfl; exact absurd ⟨hj, hjn⟩ hi

variable [DecidableEq A]

/-- **A swap of a node and its parent exchanges their positions.** -/
theorem heapNodeSwap (hr : Represents h n f) (h2 : 2 ≤ c) (hc : c ≤ n) :
    Represents (h.heapNodeSwap (f (c / 2)) (f c)) n (exchange f (c / 2) c) := by
  obtain ⟨p, hp⟩ : ∃ p, p = c / 2 := ⟨_, rfl⟩
  rw [← hp]
  have hp1 : 1 ≤ p := by omega
  have hpn : p ≤ n := by omega
  have hc1 : 1 ≤ c := by omega
  have heq : ∀ i j, 1 ≤ i → i ≤ n → 1 ≤ j → j ≤ n → (f i = f j ↔ i = j) := fun i j => hr.eq_iff
  have hocc : ∀ i j, 1 ≤ j → j ≤ n → (occupant n f i = some (f j) ↔ i = j) :=
    fun i j => hr.occupant_eq_some
  have hpc : h.parent (f c) = some (f p) := by
    rw [hr.parent c hc1 hc, ← hp, occupant_eq hp1 hpn]
  have hnpc : f p ≠ f c := by
    rw [Ne, heq _ _ hp1 hpn hc1 hc]; omega
  have hleft : h.left (f p) = some (f c) ↔ 2 * p = c := by
    rw [hr.left p hp1 hpn, hocc _ _ hc1 hc]
  have hsib : (if h.left (f p) = some (f c) then h.right (f p) else h.left (f p)) =
      occupant n f (4 * p + 1 - c) := by
    rw [hr.right p hp1 hpn]
    split_ifs with hl
    · rw [hleft] at hl
      rw [← hl, show 4 * p + 1 - 2 * p = 2 * p + 1 by omega]
    · rw [hleft] at hl
      rw [hr.left p hp1 hpn, show 4 * p + 1 - c = 2 * p by omega]
  -- the parent of the lower node is the former parent of the upper one
  have hup : (h.exchangeNodes (f p) (f c)).parent (f c) = occupant n f (p / 2) := by
    rw [Heap.exchangeNodes_parent hnpc, hr.left c hc1 hc, hr.right c hc1 hc, hsib,
      hr.parent p hp1 hpn, if_neg, if_neg, if_neg, if_neg hnpc.symm, if_pos rfl]
    all_goals rw [hocc _ _ hc1 hc]; omega
  refine ⟨?_, ?_, ?_, ?_, ?_, injOn_exchange hr.inj ⟨hp1, hpn⟩ ⟨hc1, hc⟩⟩
  · rw [Heap.heapNodeSwap, Heap.relink_nelts, Heap.exchangeNodes_nelts, hr.nelts]
  · rw [Heap.heapNodeSwap, Heap.relink_min, Heap.exchangeNodes_min, hup, hr.min,
      occupant_exchange hp1 hpn hc1 hc]
    by_cases hp' : p = 1
    · subst hp'
      simp [occupant]
    · rw [if_neg, if_neg (Ne.symm hp'), if_neg (by omega)]
      rw [occupant_eq (by omega) (by omega)]
      simp
  · intro k hk1 hkn
    simp only [Heap.heapNodeSwap, Heap.relink_left, hup, Heap.exchangeNodes_left, hleft,
      occupant_exchange hp1 hpn hc1 hc]
    rcases eq_or_ne k p with rfl | hkp
    · simp only [exchange_left, hocc _ _ hc1 hc, if_true, hr.left k hk1 hkn]
      split_ifs <;> first | rfl | omega
    rcases eq_or_ne k c with rfl | hkc
    · simp only [exchange_right, hocc _ _ hp1 hpn, hnpc, if_true, if_false, hr.left k hk1 hkn]
      split_ifs <;> first | rfl | omega
    · simp only [exchange_of_ne hkp hkc, hocc _ _ hk1 hkn, heq _ _ hk1 hkn hc1 hc,
        heq _ _ hk1 hkn hp1 hpn, hr.left k hk1 hkn, hocc _ _ hp1 hpn, hkp, hkc, if_false]
      split_ifs <;> first | rfl | omega
  · intro k hk1 hkn
    simp only [Heap.heapNodeSwap, Heap.relink_right, hup, Heap.exchangeNodes_left,
      Heap.exchangeNodes_right, hleft, occupant_exchange hp1 hpn hc1 hc]
    rcases eq_or_ne k p with rfl | hkp
    · simp only [exchange_left, hocc _ _ hc1 hc, if_true, hr.left k hk1 hkn, hr.right k hk1 hkn]
      split_ifs <;> first | rfl | omega
    rcases eq_or_ne k c with rfl | hkc
    · simp only [exchange_right, hocc _ _ hp1 hpn, hnpc, if_true, if_false, hr.left k hk1 hkn,
        hr.right k hk1 hkn]
      split_ifs <;> first | rfl | omega
    · simp only [exchange_of_ne hkp hkc, hocc _ _ hk1 hkn, heq _ _ hk1 hkn hc1 hc, Ne,
        heq _ _ hk1 hkn hp1 hpn, hr.left k hk1 hkn, hr.right k hk1 hkn, hocc _ _ hp1 hpn, hkp, hkc, if_false]
      split_ifs <;> first | rfl | omega
  · intro k hk1 hkn
    rw [Heap.heapNodeSwap, Heap.relink_parent, Heap.exchangeNodes_parent hnpc, hsib,
      occupant_exchange hp1 hpn hc1 hc, hr.left c hc1 hc, hr.right c hc1 hc]
    rcases eq_or_ne k p with rfl | hkp
    · simp only [exchange_left, hocc _ _ hc1 hc, hnpc.symm, if_true, if_false,
        hr.parent k hk1 hkn]
      split_ifs <;> first | rfl | omega
    rcases eq_or_ne k c with rfl | hkc
    · simp only [exchange_right, hocc _ _ hp1 hpn, if_true]
      split_ifs <;> first | rfl | omega
    · simp only [exchange_of_ne hkp hkc, hocc _ _ hk1 hkn, heq _ _ hk1 hkn hc1 hc,
        heq _ _ hk1 hkn hp1 hpn, hr.parent k hk1 hkn, hkp, hkc, if_false]
      split_ifs <;> first | rfl | omega

end Represents

end SimpleUv.Libuv
