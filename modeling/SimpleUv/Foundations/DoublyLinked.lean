import Mathlib.Data.List.Chain
import Mathlib.Data.List.Nodup
import Mathlib.Logic.Function.Basic

/-!
# Circular doubly linked lists

Each element has a link to the one after it and to the one before it. `Joined m x y` says that `y` is after
`x` by both, and `m.join x y` makes it so. In a `Circle` the elements are joined in their order, and the last
one to the first. Every change of such a list joins a few pairs: `circle_insert`, `circle_remove`
and `circle_split` say which pairs put an element in, take one out and cut a circle in two. A list can be gone
through from its head when it is only `Returning`: links back that nobody uses may be wrong.
-/

namespace Foundations

variable {α : Type*}

/-- The links of all elements. -/
structure Neighbours (α : Type*) where
  next : α → α
  prev : α → α

namespace Neighbours

/-- The second element is after the first one, and the first one before it. -/
def Joined (m : Neighbours α) (x y : α) : Prop := m.next x = y ∧ m.prev y = x

/-- The links with `y` put after `x`. -/
def join [DecidableEq α] (m : Neighbours α) (x y : α) : Neighbours α where
  next := Function.update m.next x y
  prev := Function.update m.prev y x

/-- The elements are different, and joined in their order, the last one to the first. -/
def Circle (m : Neighbours α) (h : α) (l : List α) : Prop :=
  (h :: l).Nodup ∧ (h :: l ++ [h]).IsChain m.Joined

variable {m m' : Neighbours α} {h n p q s x y z : α} {a b l u v : List α}

/-- A relation is only asked about neighbours. -/
theorem isChain_of_mem {R S : α → α → Prop} (hl : l.IsChain R)
    (hRS : ∀ x ∈ l.dropLast, ∀ y ∈ l.tail, R x y → S x y) : l.IsChain S := by
  induction l with
  | nil => exact .nil
  | cons x l ih =>
    cases l with
    | nil => exact .singleton x
    | cons y l =>
      rw [List.isChain_cons_cons] at hl ⊢
      refine ⟨hRS x (by simp) y (by simp) hl.1, ih hl.2 fun u hu v hv => hRS u ?_ v ?_⟩
      · exact List.mem_cons_of_mem x hu
      · exact List.mem_cons_of_mem y hv

theorem Circle.congr (hc : Circle m h l) (hm : ∀ x ∈ h :: l, m'.next x = m.next x ∧ m'.prev x = m.prev x) :
    Circle m' h l := by
  refine ⟨hc.1, isChain_of_mem hc.2 fun x hx y hy hxy => ⟨?_, ?_⟩⟩
  · rw [List.dropLast_concat] at hx
    rw [(hm x hx).1, hxy.1]
  · have hy' : y ∈ h :: l := by
      rw [List.cons_append, List.tail_cons, List.mem_append, List.mem_singleton] at hy
      rw [List.mem_cons]
      exact hy.symm
    rw [(hm y hy').2, hxy.2]

variable [DecidableEq α]

theorem joined_join (m : Neighbours α) (x y : α) : (m.join x y).Joined x y :=
  ⟨Function.update_self .., Function.update_self ..⟩

theorem Joined.join (hm : m.Joined x y) (hx : x ≠ p) (hy : y ≠ q) : (m.join p q).Joined x y :=
  ⟨(Function.update_of_ne hx ..).trans hm.1, (Function.update_of_ne hy ..).trans hm.2⟩

/-- A chain in which nothing is after `p` or before `q`. -/
theorem isChain_join (hl : l.IsChain m.Joined) (hp : p ∉ l.dropLast) (hq : q ∉ l.tail) :
    l.IsChain (m.join p q).Joined :=
  isChain_of_mem hl fun _ hx _ hy hxy =>
    hxy.join (fun hc => hp (hc ▸ hx)) fun hc => hq (hc ▸ hy)

omit [DecidableEq α] in
/-- What is before and after a place of a circle: `p` ends the first part, `s` begins the second one. -/
theorem Circle.exists_cut (hc : Circle m h (a ++ b)) : ∃ a' p s b', h :: a = a' ++ [p] ∧ b ++ [h] = s :: b' ∧
    (a' ++ [p]).IsChain m.Joined ∧ m.Joined p s ∧ (s :: b').IsChain m.Joined ∧
    p ∉ a' ∧ p ∉ b ∧ s ∉ a ∧ s ∉ b' := by
  obtain ⟨a', p, ha⟩ : ∃ a' p, h :: a = a' ++ [p] :=
    ⟨_, _, (List.dropLast_concat_getLast (List.cons_ne_nil h a)).symm⟩
  obtain ⟨s, b', hb⟩ : ∃ s b', b ++ [h] = s :: b' := by
    cases b with
    | nil => exact ⟨h, [], rfl⟩
    | cons s b => exact ⟨s, b ++ [h], rfl⟩
  obtain ⟨hnodup, hchain⟩ := hc
  rw [← List.cons_append, ha] at hnodup
  rw [← List.cons_append, List.append_assoc, hb, ha, List.append_assoc, List.singleton_append,
    List.isChain_append_cons_cons] at hchain
  have hsplit := List.nodup_append.1 hnodup
  have hpa : p ∉ a' := fun hp => (List.nodup_append.1 hsplit.1).2.2 p hp p (by simp) rfl
  have hpb : p ∉ b := fun hp => hsplit.2.2 p (by simp) p hp rfl
  have hsb : (s :: b').Nodup := by
    rw [← hb, List.nodup_append]
    refine ⟨hsplit.2.1, by simp, fun x hx y hy hxy => ?_⟩
    rw [List.mem_singleton] at hy
    refine hsplit.2.2 h (ha ▸ List.mem_cons_self) x hx ?_
    rw [hxy, hy]
  have hsa : s ∉ a := by
    intro hs
    have hs' : s ∈ b ++ [h] := hb ▸ List.mem_cons_self
    rw [List.mem_append, List.mem_singleton] at hs'
    have hsa' : s ∈ a' ++ [p] := ha ▸ List.mem_cons_of_mem h hs
    rcases hs' with hs' | rfl
    · exact hsplit.2.2 s hsa' s hs' rfl
    · rw [← ha] at hsplit
      exact (List.nodup_cons.1 hsplit.1).1 hs
  exact ⟨a', p, s, b', ha, hb, hchain.1, hchain.2.1, hchain.2.2, hpa, hpb, hsa, (List.nodup_cons.1 hsb).1⟩

omit [DecidableEq α] in
/-- A cut of a circle is between a pair that is joined. -/
theorem Circle.joined (hc : Circle m h (a ++ b)) (ha : h :: a = u ++ [p]) (hb : b ++ [h] = s :: v) :
    m.Joined p s := by
  have hchain := hc.2
  rw [← List.cons_append, List.append_assoc, hb, ha, List.append_assoc, List.singleton_append,
    List.isChain_append_cons_cons] at hchain
  exact hchain.2.1

/-- **Insertion**: a new element between `p` and `s`. -/
theorem circle_insert (hc : Circle m h (a ++ b)) (ha : h :: a = u ++ [p]) (hb : b ++ [h] = s :: v)
    (hq : q ∉ h :: (a ++ b)) : Circle ((m.join p q).join q s) h (a ++ q :: b) := by
  obtain ⟨a', p', s', b', ha', hb', h₁, -, h₂, hpa, hpb, hsa, hsb⟩ := hc.exists_cut
  obtain ⟨rfl, hp⟩ := List.append_inj' (ha.symm.trans ha') rfl
  obtain rfl : p = p' := List.singleton_inj.1 hp
  obtain ⟨rfl, rfl⟩ := List.cons_eq_cons.1 (hb.symm.trans hb')
  have hqa : q ∉ h :: a := fun hc' => hq (by
    rw [← List.cons_append]
    exact List.mem_append_left b hc')
  have hqb : q ∉ b ++ [h] := by
    rw [List.mem_append, List.mem_singleton]
    rintro (hc' | rfl)
    exacts [hq (List.mem_cons_of_mem h (List.mem_append_right a hc')), hq List.mem_cons_self]
  have hpq : p ≠ q := by rintro rfl; exact hqa (ha ▸ by simp)
  have hqs : q ≠ s := by rintro rfl; exact hqb (hb ▸ List.mem_cons_self)
  refine ⟨?_, ?_⟩
  · have hperm : (q :: h :: (a ++ b)).Perm (h :: (a ++ q :: b)) :=
      (List.Perm.swap h q _).trans (List.perm_middle.symm.cons h)
    exact hperm.nodup_iff.1 (List.nodup_cons.2 ⟨hq, hc.1⟩)
  · have hlist : h :: (a ++ q :: b) ++ [h] = u ++ p :: q :: s :: v := by
      rw [← List.cons_append, ha, List.append_assoc, List.cons_append, hb]
      simp
    rw [hlist, List.isChain_append_cons_cons, List.isChain_cons_cons]
    refine ⟨?_, (joined_join m p q).join hpq hqs, joined_join _ q s, ?_⟩
    · refine isChain_join (isChain_join h₁ ?_ ?_) ?_ ?_
      all_goals first | rw [List.dropLast_concat] | rw [← ha, List.tail_cons]
      · exact hpa
      · exact fun hc' => hqa (List.mem_cons_of_mem h hc')
      · exact fun hc' => hqa (ha ▸ List.mem_append_left [p] hc')
      · exact hsa
    · refine isChain_join (isChain_join h₂ ?_ ?_) ?_ ?_
      all_goals first | rw [← hb, List.dropLast_concat] | rw [List.tail_cons]
      · exact hpb
      · exact fun hc' => hqb (hb ▸ List.mem_cons_of_mem s hc')
      · exact fun hc' => hqb (List.mem_append_left [h] hc')
      · exact hsb

/-- **Removal**: the elements before and after `q` are joined. -/
theorem circle_remove (hc : Circle m h (a ++ q :: b)) (ha : h :: a = u ++ [p]) (hb : b ++ [h] = s :: v) :
    Circle (m.join p s) h (a ++ b) := by
  obtain ⟨a', p', q', b', ha', -, h₁, -, -, hpa, hpb, -, -⟩ := hc.exists_cut
  obtain ⟨rfl, hp⟩ := List.append_inj' (ha.symm.trans ha') rfl
  obtain rfl : p = p' := List.singleton_inj.1 hp
  have hc' : Circle m h ((a ++ [q]) ++ b) := by rwa [List.append_assoc]
  obtain ⟨-, -, s', b'', -, hb'', -, -, h₂, -, -, hsa, hsb⟩ := hc'.exists_cut
  obtain ⟨rfl, rfl⟩ := List.cons_eq_cons.1 (hb.symm.trans hb'')
  refine ⟨hc.1.sublist (((List.sublist_cons_self q b).append_left a).cons_cons h), ?_⟩
  have hlist : h :: (a ++ b) ++ [h] = u ++ p :: s :: v := by
    rw [← List.cons_append, ha, List.append_assoc, hb]
    simp
  rw [hlist, List.isChain_append_cons_cons]
  refine ⟨isChain_join h₁ ?_ ?_, joined_join m p s, isChain_join h₂ ?_ ?_⟩
  · rwa [List.dropLast_concat]
  · rw [← ha, List.tail_cons]
    exact fun hs => hsa (List.mem_append_left [q] hs)
  · rw [← hb, List.dropLast_concat]
    exact fun hp => hpb (List.mem_cons_of_mem q hp)
  · rwa [List.tail_cons]

/-- Other circles are left alone. -/
theorem Circle.join (hc : Circle m h l) (hp : p ∉ h :: l) (hq : q ∉ h :: l) : Circle (m.join p q) h l :=
  hc.congr fun _ hx => ⟨Function.update_of_ne (ne_of_mem_of_not_mem hx hp) ..,
    Function.update_of_ne (ne_of_mem_of_not_mem hx hq) ..⟩

/-- A chain in which nothing is after the last element of a list without duplicates, or before the first. -/
theorem isChain_join_of_notMem (hl : (x :: a).IsChain m.Joined) (ha : x :: a = u ++ [y])
    (hnodup : (x :: a).Nodup) (hp : p = y ∨ p ∉ x :: a) (hq : q = x ∨ q ∉ x :: a) :
    (x :: a).IsChain (m.join p q).Joined := by
  refine isChain_join hl ?_ ?_
  · rw [ha, List.dropLast_concat]
    rw [ha] at hp hnodup
    rcases hp with rfl | hp
    · exact fun hc => (List.nodup_append.1 hnodup).2.2 p hc p (by simp) rfl
    · exact fun hc => hp (List.mem_append_left [y] hc)
  · rw [List.tail_cons]
    rcases hq with rfl | hq
    · exact (List.nodup_cons.1 hnodup).1
    · exact fun hc => hq (List.mem_cons_of_mem x hc)

/-- **A cut**: the elements from `q` on are a circle of their own with the new head `n`, and what is before
them one with the old head. Here `z` is the last element. -/
theorem circle_split (hc : Circle m h (a ++ q :: b)) (hn : n ∉ h :: (a ++ q :: b)) (ha : h :: a = u ++ [p])
    (hb : q :: b = v ++ [z]) :
    Circle (((m.join z n).join n q).join p h) h a ∧ Circle (((m.join z n).join n q).join p h) n (q :: b) := by
  have hnodup : (h :: a ++ q :: b).Nodup := hc.1
  obtain ⟨hnodup₁, hnodup₂, hdisj⟩ := List.nodup_append.1 hnodup
  have hchain : (h :: a ++ q :: b).IsChain m.Joined := hc.2.left_of_append
  have h₁ := hchain.left_of_append
  have h₂ := hchain.right_of_append
  have hn₁ : n ∉ h :: a := fun hc' => hn (List.mem_append_left (q :: b) hc')
  have hn₂ : n ∉ q :: b := fun hc' => hn (List.mem_cons_of_mem h (List.mem_append_right a hc'))
  have hp : p ∈ h :: a := ha ▸ by simp
  have hz : z ∈ q :: b := hb ▸ by simp
  have hz₁ : z ∉ h :: a := fun hc' => hdisj z hc' z hz rfl
  have hp₂ : p ∉ q :: b := fun hc' => hdisj p hp p hc' rfl
  have hh₂ : h ∉ q :: b := fun hc' => hdisj h List.mem_cons_self h hc' rfl
  have hq₁ : q ∉ h :: a := fun hc' => hdisj q hc' q List.mem_cons_self rfl
  refine ⟨⟨hnodup₁, ?_⟩, List.nodup_cons.2 ⟨hn₂, hnodup₂⟩, ?_⟩
  · have hlist : h :: a ++ [h] = u ++ p :: h :: [] := by rw [ha]; simp
    rw [hlist, List.isChain_append_cons_cons, ← ha]
    refine ⟨?_, joined_join _ p h, .singleton h⟩
    refine isChain_join_of_notMem ?_ ha hnodup₁ (.inl rfl) (.inl rfl)
    refine isChain_join_of_notMem ?_ ha hnodup₁ (.inr hn₁) (.inr hq₁)
    exact isChain_join_of_notMem h₁ ha hnodup₁ (.inr hz₁) (.inr hn₁)
  · have hlist : n :: (q :: b) ++ [n] = n :: v ++ z :: n :: [] := by rw [hb]; simp
    rw [hlist, List.isChain_append_cons_cons, List.cons_append, ← hb, List.isChain_cons_cons]
    have hnz : z ≠ n := fun hc' => hn₂ (hc' ▸ hz)
    have hnq : n ≠ q := fun hc' => hn₂ (hc' ▸ List.mem_cons_self)
    have hnp : n ≠ p := fun hc' => hn₁ (hc' ▸ hp)
    have hnh : n ≠ h := fun hc' => hn₁ (hc' ▸ List.mem_cons_self)
    have hqh : q ≠ h := fun hc' => hh₂ (hc' ▸ List.mem_cons_self)
    have hzp : z ≠ p := fun hc' => hp₂ (hc' ▸ hz)
    refine ⟨⟨(joined_join _ n q).join hnp hqh, ?_⟩, ?_, .singleton n⟩
    · refine isChain_join_of_notMem ?_ hb hnodup₂ (.inr hp₂) (.inr hh₂)
      refine isChain_join_of_notMem ?_ hb hnodup₂ (.inr hn₂) (.inl rfl)
      exact isChain_join_of_notMem h₂ hb hnodup₂ (.inl rfl) (.inr hn₂)
    · exact ((joined_join m z n).join hnz hnq).join hzp hnh

end Neighbours

/-! ## Lists whose links back are stale -/

namespace Neighbours

variable {m m' : Neighbours α} {h q x y z : α} {a b l : List α}

/-- The links to the next element lead from `x` through the list to `y`. -/
def Leads (m : Neighbours α) : α → List α → α → Prop
  | x, [], y => m.next x = y
  | x, q :: l, y => m.next x = q ∧ m.Leads q l y

/-- The head knows the first and the last element, and the first one the head. What is after the last one and
before the others does not matter. -/
structure Onward (m : Neighbours α) (h : α) (l : List α) : Prop where
  nodup : (h :: l).Nodup
  leads : ∃ y, m.Leads h l y
  first : m.prev (l.headD h) = h
  last : m.prev h = l.getLastD h

/-- The next links lead through the list and back to the head, and only the first link back is needed. -/
structure Returning (m : Neighbours α) (h : α) (l : List α) : Prop where
  nodup : (h :: l).Nodup
  leads : m.Leads h l h
  first : m.prev (l.headD h) = h

/-- Only the link of the last element decides where a list leads. -/
theorem Leads.retarget (hl : m.Leads x l y) (hnodup : (x :: l).Nodup)
    (hsame : ∀ q ∈ x :: l, q ≠ l.getLastD x → m'.next q = m.next q) (hlast : m'.next (l.getLastD x) = z) :
    m'.Leads x l z := by
  induction l generalizing x with
  | nil => exact hlast
  | cons q l ih =>
    obtain ⟨hx, hnodup⟩ := List.nodup_cons.1 hnodup
    rw [List.getLastD_cons] at hlast hsame
    have hne : x ≠ l.getLastD q := fun hc => hx (hc ▸ List.getLastD_mem_cons)
    exact ⟨(hsame x List.mem_cons_self hne).trans hl.1,
      ih hl.2 hnodup (fun p hp => hsame p (List.mem_cons_of_mem x hp)) hlast⟩

theorem Leads.congr (hl : m.Leads x l y) (hsame : ∀ q ∈ x :: l, m'.next q = m.next q) : m'.Leads x l y := by
  induction l generalizing x with
  | nil => exact (hsame x List.mem_cons_self).trans hl
  | cons q l ih =>
    exact ⟨(hsame x List.mem_cons_self).trans hl.1, ih hl.2 fun p hp => hsame p (List.mem_cons_of_mem x hp)⟩

theorem Onward.congr (hl : m.Onward h l) (hm : ∀ x ∈ h :: l, m'.next x = m.next x ∧ m'.prev x = m.prev x) :
    m'.Onward h l where
  nodup := hl.nodup
  leads := hl.leads.imp fun y hy => hy.congr fun x hx => (hm x hx).1
  first := by
    have hs : l.headD h ∈ h :: l := by
      cases l with
      | nil => exact List.mem_cons_self
      | cons s l => exact List.mem_cons_of_mem h List.mem_cons_self
    rw [(hm _ hs).2, hl.first]
  last := by rw [(hm h List.mem_cons_self).2, hl.last]

theorem leads_append : m.Leads x (a ++ q :: b) y ↔ m.Leads x a q ∧ m.Leads q b y := by
  induction a generalizing x with
  | nil => exact Iff.rfl
  | cons p a ih =>
    show m.next x = p ∧ m.Leads p (a ++ q :: b) y ↔ (m.next x = p ∧ m.Leads p a q) ∧ m.Leads q b y
    rw [ih, and_assoc]

theorem leads_of_isChain (hl : (x :: (l ++ [y])).IsChain m.Joined) : m.Leads x l y := by
  induction l generalizing x with
  | nil => exact (List.isChain_cons_cons.1 hl).1.1
  | cons q l ih =>
    obtain ⟨hjoined, hrest⟩ := List.isChain_cons_cons.1 hl
    exact ⟨hjoined.1, ih hrest⟩

/-- A circle is not stale at all. -/
theorem Circle.onward (hc : m.Circle h l) : m.Onward h l where
  nodup := hc.1
  leads := ⟨h, leads_of_isChain hc.2⟩
  first := by
    cases l with
    | nil => exact (hc.joined (a := []) (b := []) (u := []) rfl rfl).2
    | cons q l => exact (hc.joined (a := []) (b := q :: l) (u := []) rfl rfl).2
  last := by
    obtain ⟨u, hu⟩ : ∃ u, h :: l = u ++ [l.getLastD h] :=
      ⟨_, by
        rw [← List.getLast_eq_getLastD (List.cons_ne_nil h l)]
        exact (List.dropLast_concat_getLast _).symm⟩
    have hc' : m.Circle h (l ++ []) := by rwa [List.append_nil]
    exact (hc'.joined hu rfl).2

end Neighbours

end Foundations
