import Mathlib.Data.List.Nodup
import Mathlib.Data.List.Perm.Basic
import Mathlib.Data.List.Count
import Mathlib.Data.Fintype.EquivFin
import Mathlib.Logic.Function.Basic

/-!
# Pools of objects that are lent out

A program keeps objects of one kind on the heap. Those it does not need are on a free list; it takes the
front one, or allocates when the list is empty (`next`), works on it (`hold`), and lends it to someone
else (`lend`) or puts it back (`putBack`). A lent object comes back in any order, to the end of the
list, or to the heap when the list is long (`release`). With each lent object the pool notes what the
borrower was promised.

`Inv R P limit` is the invariant of the pool: every allocated object has exactly one owner (the list, the
borrower, or the program), lent objects are as promised (`R`), all objects have the property `P`, and the
list does not outgrow its limit by more than one.
-/

namespace Foundations

/-- The allocated objects, the free list, the lent objects with their notes, and the one in hand. -/
structure LendingPool (α β : Type*) where
  heap : ℕ → Option α
  free : List ℕ
  lent : List (ℕ × β)
  hand : Option (ℕ × β)

namespace LendingPool

variable {α β : Type*}

/-- Nothing is allocated. -/
def start : LendingPool α β := ⟨fun _ => none, [], [], none⟩

section Operations

variable (s : LendingPool α β)

/-- Who owns an object. -/
def owners : List ℕ := s.free ++ (s.lent.map Prod.fst ++ (s.hand.map Prod.fst).toList)

/-- The allocator may return the address `a`, when it is asked. -/
def Allocates (a : ℕ) : Prop := s.free = [] → s.heap a = none

/-- The next object, with the rest of the list: the front of the list, or `new` at the address `a`. -/
def next (a : ℕ) (new : α) : Option (ℕ × α × List ℕ) :=
  match s.free with
  | [] => some (a, new, [])
  | c :: rest => (s.heap c).map fun x => (c, x, rest)

/-- The object is in hand, as it was filled. -/
def hold (c : ℕ) (x : α) (note : β) (rest : List ℕ) : LendingPool α β :=
  { s with heap := Function.update s.heap c (some x), free := rest, hand := some (c, note) }

/-- The object in hand is lent. -/
def lend : LendingPool α β := { s with lent := s.lent ++ s.hand.toList, hand := none }

/-- The object in hand goes back to the list. -/
def putBack : LendingPool α β :=
  { s with free := s.free ++ (s.hand.map Prod.fst).toList, hand := none }

/-- A lent object comes back. It is freed when the list is longer than the limit. -/
def release (limit i : ℕ) : Option (LendingPool α β) :=
  s.lent[i]?.map fun entry =>
    let s := { s with lent := s.lent.eraseIdx i }
    if limit < s.free.length then { s with heap := Function.update s.heap entry.1 none }
    else { s with free := s.free ++ [entry.1] }

end Operations

variable {s t : LendingPool α β}

theorem allocates_of_not {a : ℕ} (h : ¬(s.free = [] ∧ (s.heap a).isSome)) : s.Allocates a :=
  fun hfree => Option.not_isSome_iff_eq_none.1 fun hsome => h ⟨hfree, hsome⟩

theorem not_of_allocates {a : ℕ} (h : s.Allocates a) : ¬(s.free = [] ∧ (s.heap a).isSome) :=
  fun ⟨hfree, hsome⟩ => Option.not_isSome_iff_eq_none.2 (h hfree) hsome

/-- **The invariant.** -/
structure Inv (R : α → β → Prop) (P : α → Prop) (limit : ℕ) (s : LendingPool α β) : Prop where
  nodup : s.owners.Nodup
  owned : ∀ a, a ∈ s.owners ↔ ∃ x, s.heap a = some x
  noted : ∀ a note, (a, note) ∈ s.lent ++ s.hand.toList → ∃ x, s.heap a = some x ∧ R x note
  good : ∀ a x, s.heap a = some x → P x
  bound : s.free.length + s.hand.toList.length ≤ limit + 1

variable {R : α → β → Prop} {P : α → Prop} {limit : ℕ}

theorem inv_start : (start : LendingPool α β).Inv R P limit where
  nodup := .nil
  owned a := by simp [owners, start]
  noted a note h := by cases h
  good a x h := by cases h
  bound := Nat.zero_le _

theorem fst_mem_owners {a : ℕ} {note : β} (h : (a, note) ∈ s.lent ++ s.hand.toList) :
    a ∈ s.owners := by
  refine List.mem_append_right _ ?_
  rcases List.mem_append.1 h with h | h
  · exact List.mem_append_left _ (List.mem_map.2 ⟨_, h, rfl⟩)
  · refine List.mem_append_right _ ?_
    rw [Option.mem_toList] at h
    simp [Option.mem_def.1 h]

namespace Inv

/-- The next object has no other owner. -/
theorem next (h : s.Inv R P limit) (hhand : s.hand = none) {a c : ℕ} {new x : α} {rest : List ℕ}
    (hnew : s.Allocates a) (hP : P new) (hs : s.next a new = some (c, x, rest)) :
    P x ∧ (c :: (rest ++ s.lent.map Prod.fst)).Nodup ∧
      (∀ b, b ≠ c → (b ∈ rest ++ s.lent.map Prod.fst ↔ ∃ y, s.heap b = some y)) ∧
      rest.length + 1 ≤ limit + 1 := by
  have hnodup := h.nodup
  have howned := h.owned
  have hbound := h.bound
  simp only [owners, hhand, Option.map_none, Option.toList_none, List.append_nil] at hnodup howned
  unfold LendingPool.next at hs
  cases hfree : s.free with
  | nil =>
    rw [hfree] at hs
    simp only [Option.some.injEq, Prod.mk.injEq] at hs
    obtain ⟨rfl, rfl, rfl⟩ := hs
    rw [hfree] at hnodup howned
    refine ⟨hP, List.nodup_cons.2 ⟨fun hmem => ?_, hnodup⟩, fun b _ => howned b, by simp⟩
    obtain ⟨y, hy⟩ := (howned a).1 hmem
    rw [hnew hfree] at hy
    cases hy
  | cons c' rest' =>
    rw [hfree] at hs
    obtain ⟨y, hy, hs⟩ := Option.map_eq_some_iff.1 hs
    simp only [Prod.mk.injEq] at hs
    obtain ⟨rfl, rfl, rfl⟩ := hs
    rw [hfree] at hnodup howned hbound
    refine ⟨h.good _ _ hy, hnodup, fun b hb => ?_, by simpa [hhand] using hbound⟩
    rw [← howned b, List.cons_append, List.mem_cons]
    exact ⟨.inr, fun hmem => hmem.resolve_left hb⟩

/-- In a pool that keeps its invariant the front of the list is an object. -/
theorem next_isSome (h : s.Inv R P limit) (a : ℕ) (new : α) :
    ∃ c x rest, s.next a new = some (c, x, rest) := by
  unfold LendingPool.next
  cases hfree : s.free with
  | nil => exact ⟨a, new, [], rfl⟩
  | cons c rest =>
    obtain ⟨x, hx⟩ := (h.owned c).1 (List.mem_append_left _ (by rw [hfree]; exact List.mem_cons_self))
    exact ⟨c, x, rest, by simp only [hx, Option.map_some]⟩

/-- The allocator can always answer. -/
theorem exists_allocates (h : s.Inv R P limit) : ∃ a, s.Allocates a := by
  obtain ⟨a, ha⟩ := Infinite.exists_notMem_finset s.owners.toFinset
  refine ⟨a, fun _ => ?_⟩
  by_contra hne
  exact ha (List.mem_toFinset.2 ((h.owned a).2 (Option.ne_none_iff_exists'.1 hne)))

theorem hold (h : s.Inv R P limit) (hhand : s.hand = none) {a c : ℕ} {new x x' : α} {note : β}
    {rest : List ℕ} (hnew : s.Allocates a) (hP : P new) (hs : s.next a new = some (c, x, rest))
    (hx : P x') (hR : R x' note) : (s.hold c x' note rest).Inv R P limit := by
  obtain ⟨-, hnodup, howned, hbound⟩ := h.next hhand hnew hP hs
  obtain ⟨hc, hnodup'⟩ := List.nodup_cons.1 hnodup
  have hperm : (s.hold c x' note rest).owners.Perm (c :: (rest ++ s.lent.map Prod.fst)) := by
    show (rest ++ (s.lent.map Prod.fst ++ [c])).Perm _
    rw [← List.append_assoc]
    exact List.perm_append_singleton _ _
  refine ⟨hperm.nodup_iff.2 hnodup, fun b => ?_, fun b note' hb => ?_, fun b y hy => ?_, hbound⟩
  · rw [hperm.mem_iff, List.mem_cons]
    by_cases hbc : b = c
    · subst hbc
      simp [LendingPool.hold]
    · rw [show (s.hold c x' note rest).heap b = s.heap b from Function.update_of_ne hbc _ _,
        ← howned b hbc]
      simp [hbc]
  · rcases List.mem_append.1 hb with hb | hb
    · have hbc : b ≠ c := by
        rintro rfl
        exact hc (List.mem_append_right _ (List.mem_map.2 ⟨_, hb, rfl⟩))
      obtain ⟨y, hy, hRy⟩ := h.noted b note' (List.mem_append_left _ hb)
      exact ⟨y, (Function.update_of_ne hbc _ _).trans hy, hRy⟩
    · obtain ⟨rfl, rfl⟩ := Prod.mk.inj (List.mem_singleton.1 hb)
      exact ⟨x', Function.update_self _ _ _, hR⟩
  · by_cases hbc : b = c
    · subst hbc
      rw [show (s.hold b x' note rest).heap b = some x' from Function.update_self _ _ _] at hy
      cases hy
      exact hx
    · exact h.good b y ((Function.update_of_ne hbc _ _).symm.trans hy)

/-- The owners change places, and the objects stay. -/
theorem of_perm (h : s.Inv R P limit) (hperm : t.owners.Perm s.owners) (hheap : t.heap = s.heap)
    (hnoted : ∀ e ∈ t.lent ++ t.hand.toList, e ∈ s.lent ++ s.hand.toList)
    (hbound : t.free.length + t.hand.toList.length ≤ limit + 1) : t.Inv R P limit where
  nodup := hperm.nodup_iff.2 h.nodup
  owned a := by rw [hperm.mem_iff, hheap, h.owned]
  noted a note ha := by
    rw [hheap]
    exact h.noted a note (hnoted _ ha)
  good a x ha := h.good a x (hheap ▸ ha)
  bound := hbound

/-- An owner gives its object back to the heap. -/
theorem of_freed (h : s.Inv R P limit) {c : ℕ} (hperm : s.owners.Perm (c :: t.owners))
    (hheap : t.heap = Function.update s.heap c none)
    (hnoted : ∀ e ∈ t.lent ++ t.hand.toList, e ∈ s.lent ++ s.hand.toList)
    (hbound : t.free.length + t.hand.toList.length ≤ limit + 1) : t.Inv R P limit := by
  obtain ⟨hc, hnodup⟩ := List.nodup_cons.1 (hperm.nodup_iff.1 h.nodup)
  have hother : ∀ b, b ≠ c → t.heap b = s.heap b := fun b hb => by
    rw [hheap, Function.update_of_ne hb]
  have hself : t.heap c = none := by rw [hheap, Function.update_self]
  refine ⟨hnodup, fun b => ?_, fun b note hb => ?_, fun b x hx => ?_, hbound⟩
  · by_cases hbc : b = c
    · subst hbc
      rw [hself]
      exact ⟨fun hb => absurd hb hc, fun ⟨x, hx⟩ => by cases hx⟩
    · have hmem := h.owned b
      rw [hperm.mem_iff, List.mem_cons] at hmem
      rw [hother b hbc, ← hmem]
      exact ⟨.inr, fun hb => hb.resolve_left hbc⟩
  · have hbc : b ≠ c := by
      rintro rfl
      exact hc (fst_mem_owners hb)
    rw [hother b hbc]
    exact h.noted b note (hnoted _ hb)
  · by_cases hbc : b = c
    · rw [hbc, hself] at hx
      cases hx
    · exact h.good b x ((hother b hbc).symm.trans hx)

theorem lend (h : s.Inv R P limit) : s.lend.Inv R P limit := by
  have hbound := h.bound
  refine h.of_perm ?_ rfl (fun e he => by simpa [LendingPool.lend] using he) ?_
  · simp only [owners, LendingPool.lend, List.map_append, Option.map_none, Option.toList_none,
      List.append_nil, Option.toList_map]
    exact .refl _
  · simp only [LendingPool.lend, Option.toList_none, List.length_nil]
    omega

theorem putBack (h : s.Inv R P limit) : s.putBack.Inv R P limit := by
  have hbound := h.bound
  refine h.of_perm ?_ rfl (fun e he => ?_) ?_
  · simp only [owners, LendingPool.putBack, Option.map_none, Option.toList_none, List.append_nil,
      List.append_assoc]
    exact List.Perm.append_left _ List.perm_append_comm
  · simp only [LendingPool.putBack, Option.toList_none, List.append_nil] at he
    exact List.mem_append_left _ he
  · simp only [LendingPool.putBack, List.length_append, Option.toList_map, List.length_map,
      Option.toList_none, List.length_nil]
    omega

/-- A lent object, and the owners without it. -/
theorem release (h : s.Inv R P limit) (hhand : s.hand = none) {i : ℕ}
    (hs : s.release limit i = some t) : t.Inv R P limit ∧ t.hand = none := by
  obtain ⟨⟨c, note⟩, hi, rfl⟩ := Option.map_eq_some_iff.1 hs
  have hlent : (s.lent.map Prod.fst).Perm (c :: (s.lent.eraseIdx i).map Prod.fst) := by
    obtain ⟨hlt, hget⟩ := List.getElem?_eq_some_iff.1 hi
    have hperm := (List.getElem_cons_eraseIdx_perm hlt).symm.map Prod.fst
    rwa [hget] at hperm
  have hperm : s.owners.Perm (c :: (s.free ++ (s.lent.eraseIdx i).map Prod.fst)) := by
    simp only [owners, hhand, Option.map_none, Option.toList_none, List.append_nil]
    exact (hlent.append_left _).trans List.perm_middle
  have hbound := h.bound
  simp only [hhand, Option.toList_none, List.length_nil] at hbound
  have herase : ∀ e ∈ s.lent.eraseIdx i, e ∈ s.lent ++ s.hand.toList := fun e he =>
    List.mem_append_left _ (List.mem_of_mem_eraseIdx he)
  simp only
  split_ifs with hlong
  · -- the list is long enough, and the object is freed
    refine ⟨h.of_freed (c := c) ?_ rfl (fun e he => ?_) h.bound, hhand⟩
    · simpa only [owners, hhand, Option.map_none, Option.toList_none, List.append_nil] using hperm
    · simp only [hhand, Option.toList_none, List.append_nil] at he
      exact herase e he
  · refine ⟨h.of_perm ?_ rfl (fun e he => ?_) ?_, hhand⟩
    · simp only [owners, hhand, Option.map_none, Option.toList_none, List.append_nil,
        List.append_assoc] at hperm ⊢
      exact List.perm_middle.trans hperm.symm
    · simp only [hhand, Option.toList_none, List.append_nil] at he
      exact herase e he
    · simp only [hhand, List.length_append, List.length_singleton, Option.toList_none,
        List.length_nil]
      omega

/-- Every allocated object is on the list, lent or in hand, and only once. -/
theorem count_owners (h : s.Inv R P limit) {a : ℕ} {x : α} (ha : s.heap a = some x) :
    s.free.count a + (s.lent.map Prod.fst).count a + (s.hand.map Prod.fst).toList.count a = 1 := by
  have hcount := List.count_eq_one_of_mem h.nodup ((h.owned a).2 ⟨x, ha⟩)
  rw [owners, List.count_append, List.count_append] at hcount
  omega

end Inv

/-! ## The contents of the free list -/

/-- The objects on the free list have the contents `l`. -/
def Lists (s : LendingPool α β) (l : List α) : Prop := l.map some = s.free.map s.heap

namespace Lists

variable {l : List α}

theorem length_eq (h : s.Lists l) : l.length = s.free.length := by
  simpa using congrArg List.length h

/-- The next object has the contents at the front of the list, or those of a new object. -/
theorem next (h : s.Lists l) {a c : ℕ} {new x : α} {rest : List ℕ}
    (hs : s.next a new = some (c, x, rest)) :
    x = l.headD new ∧ l.tail.map some = rest.map s.heap := by
  unfold Lists at h
  unfold LendingPool.next at hs
  cases hfree : s.free with
  | nil =>
    rw [hfree, List.map_nil, List.map_eq_nil_iff] at h
    rw [hfree] at hs
    simp only [Option.some.injEq, Prod.mk.injEq] at hs
    obtain ⟨rfl, rfl, rfl⟩ := hs
    subst h
    exact ⟨rfl, rfl⟩
  | cons c' rest' =>
    rw [hfree, List.map_cons] at h
    obtain ⟨y, l', rfl, hy, hrest⟩ := List.map_eq_cons_iff.1 h
    rw [hfree] at hs
    obtain ⟨y', hy', hs⟩ := Option.map_eq_some_iff.1 hs
    rw [← hy] at hy'
    cases hy'
    simp only [Prod.mk.injEq] at hs
    obtain ⟨rfl, rfl, rfl⟩ := hs
    exact ⟨rfl, hrest⟩

/-- An object that is not on the list may change. -/
theorem map_update {c : ℕ} {v : Option α} {rest : List ℕ} (hc : c ∉ rest) :
    rest.map (Function.update s.heap c v) = rest.map s.heap := by
  refine List.map_congr_left fun b hb => Function.update_of_ne ?_ _ _
  rintro rfl
  exact hc hb

theorem hold {c : ℕ} {x : α} {note : β} {rest : List ℕ} (h : l.map some = rest.map s.heap)
    (hc : c ∉ rest) : (s.hold c x note rest).Lists l :=
  h.trans (map_update hc).symm

theorem putBack (h : s.Lists l) {c : ℕ} {note : β} {x : α} (hhand : s.hand = some (c, note))
    (hx : s.heap c = some x) : s.putBack.Lists (l ++ [x]) := by
  unfold Lists at h
  simp only [Lists, LendingPool.putBack, hhand, List.map_append, h, Option.map_some,
    Option.toList_some, List.map_singleton, hx]

theorem release (h : s.Lists l) (hinv : s.Inv R P limit) {i c : ℕ} {note : β} {x : α}
    (hi : s.lent[i]? = some (c, note)) (hx : s.heap c = some x)
    (hs : s.release limit i = some t) :
    t.Lists (if limit < l.length then l else l ++ [x]) ∧ t.lent = s.lent.eraseIdx i := by
  have hc : c ∉ s.free := fun hfree =>
    (List.nodup_append.1 hinv.nodup).2.2 c hfree c
      (List.mem_append_left _ (List.mem_map.2 ⟨_, List.mem_of_getElem? hi, rfl⟩)) rfl
  simp only [LendingPool.release, hi, Option.map_some, Option.some.injEq] at hs
  subst hs
  rw [h.length_eq]
  unfold Lists at h ⊢
  split_ifs with hlong
  · exact ⟨h.trans (map_update hc).symm, rfl⟩
  · simp only [List.map_append, h, List.map_singleton, hx, and_self]

end Lists

end LendingPool

end Foundations
