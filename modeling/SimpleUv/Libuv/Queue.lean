import SimpleUv.Foundations.DoublyLinked

/-!
# The queues of `queue.h`

A `QUEUE` is a node with a link to the next and one to the previous node; the lists of a loop are circles of
such nodes through a head that is part of none of its elements. The macros below are those of `queue.h`, one
assignment after another. On a circle, each of them is the operation on lists that its name says.
-/

namespace SimpleUv.Libuv

open Foundations Neighbours

variable {A : Type*} [DecidableEq A]

/-- `QUEUE_NEXT(q) = v`. -/
def setNext (m : Neighbours A) (q v : A) : Neighbours A := { m with next := Function.update m.next q v }

/-- `QUEUE_PREV(q) = v`. -/
def setPrev (m : Neighbours A) (q v : A) : Neighbours A := { m with prev := Function.update m.prev q v }

/-- `QUEUE_EMPTY`. -/
def queueEmpty (m : Neighbours A) (q : A) : Bool := q = m.next q

omit [DecidableEq A] in
/-- `QUEUE_HEAD`. -/
def queueHead (m : Neighbours A) (q : A) : A := m.next q

/-- `QUEUE_INIT`. -/
def queueInit (m : Neighbours A) (q : A) : Neighbours A :=
  let m := setNext m q q
  setPrev m q q

/-- `QUEUE_SPLIT`. -/
def queueSplit (m : Neighbours A) (h q n : A) : Neighbours A :=
  let m := setPrev m n (m.prev h)
  let m := setNext m (m.prev n) n
  let m := setNext m n q
  let m := setPrev m h (m.prev q)
  let m := setNext m (m.prev h) h
  setPrev m q n

/-- `QUEUE_MOVE`. -/
def queueMove (m : Neighbours A) (h n : A) : Neighbours A :=
  if queueEmpty m h then queueInit m n
  else queueSplit m h (queueHead m h) n

/-- `QUEUE_INSERT_TAIL`. -/
def queueInsertTail (m : Neighbours A) (h q : A) : Neighbours A :=
  let m := setNext m q h
  let m := setPrev m q (m.prev h)
  let m := setNext m (m.prev q) q
  setPrev m h q

/-- `QUEUE_REMOVE`. -/
def queueRemove (m : Neighbours A) (q : A) : Neighbours A :=
  let m := setNext m (m.prev q) (m.next q)
  setPrev m (m.next q) (m.prev q)

variable {m : Neighbours A} {h n p q s z : A} {a b l : List A}

theorem queueInit_circle (m : Neighbours A) (q : A) : Circle (queueInit m q) q [] := by
  refine ⟨by simp, ?_⟩
  simp [queueInit, setNext, setPrev, Neighbours.Joined]

omit [DecidableEq A] in
theorem circle_next (hc : Circle m h l) : m.next h = l.headD h := by
  cases l with
  | nil => exact (hc.joined (a := []) (b := []) (u := []) rfl rfl).1
  | cons q l => exact (hc.joined (a := []) (b := q :: l) (u := []) rfl rfl).1

theorem queueEmpty_iff (hc : Circle m h l) : queueEmpty m h = true ↔ l = [] := by
  rw [queueEmpty, decide_eq_true_iff, circle_next hc]
  cases l with
  | nil => simp
  | cons q l =>
    have hne : h ≠ q := fun hq => (List.nodup_cons.1 hc.1).1 (hq ▸ List.mem_cons_self)
    simp [hne]

theorem queueInsertTail_eq (hc : Circle m h l) (hq : q ∉ h :: l) : ∃ l₁ p, h :: l = l₁ ++ [p] ∧
    queueInsertTail m h q = (m.join p q).join q h := by
  obtain ⟨l₁, p, hl⟩ : ∃ l₁ p, h :: l = l₁ ++ [p] :=
    ⟨_, _, (List.dropLast_concat_getLast (List.cons_ne_nil h l)).symm⟩
  have hc' : Circle m h (l ++ []) := by rwa [List.append_nil]
  have hprev : m.prev h = p := (hc'.joined hl rfl).2
  have hpq : p ≠ q := by rintro rfl; exact hq (hl ▸ by simp)
  refine ⟨l₁, p, hl, ?_⟩
  simp only [queueInsertTail, setNext, setPrev, Neighbours.join, Function.update_self, hprev]
  rw [Function.update_comm hpq]

/-- `QUEUE_INSERT_TAIL` puts an element at the end. -/
theorem queueInsertTail_circle (hc : Circle m h l) (hq : q ∉ h :: l) :
    Circle (queueInsertTail m h q) h (l ++ [q]) := by
  obtain ⟨l₁, p, hl, heq⟩ := queueInsertTail_eq hc hq
  have hc' : Circle m h (l ++ []) := by rwa [List.append_nil]
  rw [heq]
  exact circle_insert (b := []) hc' hl rfl (by rwa [List.append_nil])

theorem queueRemove_eq (hc : Circle m h (a ++ q :: b)) : ∃ l₁ p s l₂, h :: a = l₁ ++ [p] ∧
    b ++ [h] = s :: l₂ ∧ queueRemove m q = m.join p s := by
  obtain ⟨l₁, p, ha⟩ : ∃ l₁ p, h :: a = l₁ ++ [p] :=
    ⟨_, _, (List.dropLast_concat_getLast (List.cons_ne_nil h a)).symm⟩
  obtain ⟨s, l₂, hb⟩ : ∃ s l₂, b ++ [h] = s :: l₂ := by
    cases b with
    | nil => exact ⟨h, [], rfl⟩
    | cons s b => exact ⟨s, b ++ [h], rfl⟩
  have hprev : m.prev q = p := (hc.joined (b := q :: b) ha rfl).2
  have hc' : Circle m h ((a ++ [q]) ++ b) := by rwa [List.append_assoc]
  have hnext : m.next q = s := (hc'.joined (u := h :: a) rfl hb).1
  have hpq : p ≠ q := by
    rintro rfl
    have hp : p ∈ h :: a := ha ▸ by simp
    have hnodup : (h :: a ++ p :: b).Nodup := hc.1
    exact (List.nodup_append.1 hnodup).2.2 p hp p List.mem_cons_self rfl
  refine ⟨l₁, p, s, l₂, ha, hb, ?_⟩
  simp only [queueRemove, setNext, setPrev, Neighbours.join, hprev, hnext,
    Function.update_of_ne hpq.symm]

/-- `QUEUE_REMOVE` takes an element out. -/
theorem queueRemove_circle (hc : Circle m h (a ++ q :: b)) : Circle (queueRemove m q) h (a ++ b) := by
  obtain ⟨l₁, p, s, l₂, ha, hb, heq⟩ := queueRemove_eq hc
  rw [heq]
  exact circle_remove hc ha hb

/-- `QUEUE_SPLIT` leaves what is before `q`, and gives the rest to another head. -/
theorem queueSplit_circle (hc : Circle m h (a ++ q :: b)) (hn : n ∉ h :: (a ++ q :: b)) :
    Circle (queueSplit m h q n) h a ∧ Circle (queueSplit m h q n) n (q :: b) := by
  obtain ⟨l₁, p, ha⟩ : ∃ l₁ p, h :: a = l₁ ++ [p] :=
    ⟨_, _, (List.dropLast_concat_getLast (List.cons_ne_nil h a)).symm⟩
  obtain ⟨l₂, z, hb⟩ : ∃ l₂ z, q :: b = l₂ ++ [z] :=
    ⟨_, _, (List.dropLast_concat_getLast (List.cons_ne_nil q b)).symm⟩
  have hp : m.prev q = p := (hc.joined (b := q :: b) ha rfl).2
  have hz : m.prev h = z := by
    have hc' : Circle m h ((a ++ q :: b) ++ []) := by rwa [List.append_nil]
    refine (hc'.joined (u := l₁ ++ [p] ++ l₂) ?_ rfl).2
    rw [← List.cons_append, ha, hb, List.append_assoc, List.append_assoc, List.append_assoc]
  have hq : q ∈ h :: (a ++ q :: b) := List.mem_cons_of_mem h (by simp)
  have hqn : q ≠ n := ne_of_mem_of_not_mem hq hn
  have hqh : q ≠ h := by
    rintro rfl
    exact (List.nodup_cons.1 hc.1).1 (by simp)
  have heq : queueSplit m h q n = ((m.join z n).join n q).join p h := by
    simp only [queueSplit, setNext, setPrev, Neighbours.join, Function.update_self,
      Function.update_of_ne hqn, hp, hz]
    rw [Function.update_comm hqh]
  rw [heq]
  exact circle_split hc hn ha hb

/-- `QUEUE_MOVE` gives all elements to another head. -/
theorem queueMove_circle (hc : Circle m h l) (hn : n ∉ h :: l) :
    Circle (queueMove m h n) h [] ∧ Circle (queueMove m h n) n l := by
  cases l with
  | nil =>
    rw [queueMove, if_pos ((queueEmpty_iff hc).2 rfl)]
    exact ⟨hc.join hn hn, queueInit_circle m n⟩
  | cons q l =>
    have hne : ¬queueEmpty m h = true := fun he => List.cons_ne_nil q l ((queueEmpty_iff hc).1 he)
    rw [queueMove, if_neg hne, queueHead, circle_next hc]
    exact queueSplit_circle (a := []) hc hn

/-! ### Queues that have nothing to do with each other -/

variable {h' : A} {l' : List A}

/-- `QUEUE_REMOVE` leaves other queues alone, -/
theorem queueRemove_frame (hc : Circle m h (a ++ q :: b)) (hc' : Circle m h' l')
    (hd : ∀ x ∈ h :: (a ++ q :: b), x ∉ h' :: l') : Circle (queueRemove m q) h' l' := by
  obtain ⟨l₁, p, s, l₂, ha, hb, heq⟩ := queueRemove_eq hc
  have hp : p ∈ h :: a := ha ▸ by simp
  have hs : s ∈ b ++ [h] := hb ▸ List.mem_cons_self
  rw [heq]
  refine hc'.join (hd p (List.mem_append_left (q :: b) hp)) (hd s ?_)
  simp only [List.mem_append, List.mem_cons, List.not_mem_nil, or_false] at hs ⊢
  tauto

/-- and so does `QUEUE_INSERT_TAIL`. -/
theorem queueInsertTail_frame (hc : Circle m h l) (hq : q ∉ h :: l) (hc' : Circle m h' l')
    (hd : ∀ x ∈ h :: l, x ∉ h' :: l') (hq' : q ∉ h' :: l') : Circle (queueInsertTail m h q) h' l' := by
  obtain ⟨l₁, p, hl, heq⟩ := queueInsertTail_eq hc hq
  rw [heq]
  exact (hc'.join (hd p (hl ▸ by simp)) hq').join hq' (hd h List.mem_cons_self)

/-! ### Queues whose links back are stale

A node that was copied has links of its own into a queue that it is not part of. -/

theorem queueSplit_head (hn : n ≠ q) (hprev : m.prev q = h) :
    queueSplit m h q n = ⟨Function.update (Function.update (Function.update m.next (m.prev h) n) n q) h h,
      Function.update (Function.update (Function.update m.prev n (m.prev h)) h h) q n⟩ := by
  simp only [queueSplit, setNext, setPrev, Function.update_self, Function.update_of_ne hn.symm, hprev]

/-- `QUEUE_MOVE` repairs the link of the last element. -/
theorem queueMove_onward (hl : m.Onward h (q :: l)) (hn : n ∉ h :: q :: l) :
    Circle (queueMove m h n) h [] ∧ (queueMove m h n).Returning n (q :: l) := by
  obtain ⟨hnodup, ⟨y, hnext, hleads⟩, hfirst, hlast⟩ := hl
  obtain ⟨hh, hnodup'⟩ := List.nodup_cons.1 hnodup
  obtain ⟨hnh, hnl⟩ := List.ne_and_not_mem_of_not_mem_cons hn
  have hhq : h ≠ q := fun hc => hh (hc ▸ List.mem_cons_self)
  have hnq : n ≠ q := fun hc => hnl (hc ▸ List.mem_cons_self)
  have hempty : ¬queueEmpty m h = true := by
    rw [queueEmpty, hnext, decide_eq_true_iff]
    exact hhq
  rw [List.getLastD_cons] at hlast
  have hz : l.getLastD q ∈ q :: l := List.getLastD_mem_cons
  have hzh : l.getLastD q ≠ h := ne_of_mem_of_not_mem hz hh
  have hzn : l.getLastD q ≠ n := ne_of_mem_of_not_mem hz hnl
  rw [queueMove, if_neg hempty, queueHead, hnext, queueSplit_head hnq hfirst, hlast]
  refine ⟨⟨by simp, ?_⟩, List.nodup_cons.2 ⟨hnl, hnodup'⟩, ⟨?_, ?_⟩, Function.update_self ..⟩
  · refine List.isChain_cons_cons.2 ⟨⟨Function.update_self .., ?_⟩, .singleton h⟩
    exact (Function.update_of_ne hhq ..).trans (Function.update_self ..)
  · exact (Function.update_of_ne hnh ..).trans (Function.update_self ..)
  · refine hleads.retarget hnodup' (fun x hx hxz => ?_) ?_
    · have hxh := ne_of_mem_of_not_mem hx hh
      have hxn := ne_of_mem_of_not_mem hx hnl
      exact (Function.update_of_ne hxh ..).trans
        ((Function.update_of_ne hxn ..).trans (Function.update_of_ne hxz ..))
    · exact (Function.update_of_ne hzh ..).trans
        ((Function.update_of_ne hzn ..).trans (Function.update_self ..))

theorem queueRemove_first (hl : m.Returning n (q :: l)) :
    queueRemove m q = ⟨Function.update m.next n (l.headD n), Function.update m.prev (l.headD n) n⟩ := by
  obtain ⟨hnodup, ⟨-, hleads⟩, hfirst⟩ := hl
  have hnq : q ≠ n := fun hc => (List.nodup_cons.1 hnodup).1 (hc ▸ List.mem_cons_self)
  have hprev : m.prev q = n := hfirst
  have hnext : m.next q = l.headD n := by
    cases l with
    | nil => exact hleads
    | cons s l => exact hleads.1
  simp only [queueRemove, setNext, setPrev, hprev, Function.update_of_ne hnq, hnext]

/-- `QUEUE_REMOVE` of the first element repairs the link of the next one. -/
theorem queueRemove_returning (hl : m.Returning n (q :: l)) : (queueRemove m q).Returning n l := by
  obtain ⟨hn, hnodup⟩ := List.nodup_cons.1 hl.nodup
  have hnl : n ∉ l := fun hc => hn (List.mem_cons_of_mem q hc)
  rw [queueRemove_first hl]
  refine ⟨List.nodup_cons.2 ⟨hnl, (List.nodup_cons.1 hnodup).2⟩, ?_, Function.update_self ..⟩
  cases l with
  | nil => exact Function.update_self ..
  | cons s l =>
    refine ⟨Function.update_self .., hl.leads.2.2.congr fun x hx => ?_⟩
    exact Function.update_of_ne (ne_of_mem_of_not_mem hx hnl) ..

/-- It leaves other queues alone, -/
theorem queueRemove_circle_of_returning (hl : m.Returning n (q :: l)) (hc : Circle m h a)
    (hd : ∀ x ∈ h :: a, x ∉ n :: q :: l) : Circle (queueRemove m q) h a := by
  have hs : l.headD n ∈ n :: q :: l := by
    cases l with
    | nil => exact List.mem_cons_self
    | cons s l => exact List.mem_cons_of_mem n (List.mem_cons_of_mem q List.mem_cons_self)
  rw [queueRemove_first hl]
  refine hc.congr fun x hx => ⟨Function.update_of_ne ?_ .., Function.update_of_ne ?_ ..⟩
  · exact fun hxn => hd x hx (hxn ▸ List.mem_cons_self)
  · exact fun hxs => hd x hx (hxs ▸ hs)

/-- and so does `QUEUE_INSERT_TAIL`. -/
theorem queueInsertTail_returning (hl : m.Returning n l) (hc : Circle m h a) (hq : q ∉ h :: a)
    (hd : ∀ x ∈ q :: h :: a, x ∉ n :: l) : (queueInsertTail m h q).Returning n l := by
  obtain ⟨u, p, hu, heq⟩ := queueInsertTail_eq hc hq
  have hp : p ∈ q :: h :: a := List.mem_cons_of_mem q (hu ▸ by simp)
  have hnot {x y : A} (hx : x ∈ n :: l) (hy : y ∈ q :: h :: a) : x ≠ y := fun hxy => hd y hy (hxy ▸ hx)
  have hs : l.headD n ∈ n :: l := by
    cases l with
    | nil => exact List.mem_cons_self
    | cons s l => exact List.mem_cons_of_mem n List.mem_cons_self
  rw [heq]
  refine ⟨hl.nodup, hl.leads.congr fun x hx => ?_, ?_⟩
  · exact (Function.update_of_ne (hnot hx List.mem_cons_self) ..).trans (Function.update_of_ne (hnot hx hp) ..)
  · refine (Function.update_of_ne (hnot hs ?_) ..).trans
      ((Function.update_of_ne (hnot hs List.mem_cons_self) ..).trans hl.first)
    exact List.mem_cons_of_mem q List.mem_cons_self

/-- `QUEUE_INSERT_TAIL` needs the link to the last element only. -/
theorem queueInsertTail_onward (hl : m.Onward h l) (hq : q ∉ h :: l) :
    (queueInsertTail m h q).Onward h (l ++ [q]) ∧ (queueInsertTail m h q).prev q = l.getLastD h ∧
      (queueInsertTail m h q).next q = h := by
  obtain ⟨hnodup, ⟨y, hleads⟩, hfirst, hlast⟩ := hl
  obtain ⟨hqh, hql⟩ := List.ne_and_not_mem_of_not_mem_cons hq
  have hz : l.getLastD h ∈ h :: l := List.getLastD_mem_cons
  have hzq : q ≠ l.getLastD h := fun hc => hq (hc ▸ hz)
  have heq : queueInsertTail m h q = ⟨Function.update (Function.update m.next q h) (l.getLastD h) q,
      Function.update (Function.update m.prev q (l.getLastD h)) h q⟩ := by
    simp only [queueInsertTail, setNext, setPrev, Function.update_self, hlast]
  rw [heq]
  refine ⟨⟨?_, ⟨h, leads_append.2 ⟨?_, ?_⟩⟩, ?_, ?_⟩, ?_, ?_⟩
  · rw [← List.cons_append, List.nodup_append]
    exact ⟨hnodup, List.nodup_singleton q, fun x hx y hy hxy => hq (List.mem_singleton.1 hy ▸ hxy ▸ hx)⟩
  · refine hleads.retarget hnodup (fun x hx hxz => ?_) (Function.update_self ..)
    have hxq := ne_of_mem_of_not_mem hx hq
    exact (Function.update_of_ne hxz ..).trans (Function.update_of_ne hxq ..)
  · exact (Function.update_of_ne hzq ..).trans (Function.update_self ..)
  · cases l with
    | nil => exact (Function.update_of_ne hqh ..).trans (Function.update_self ..)
    | cons s l =>
      have hsh : s ≠ h := fun hc => (List.nodup_cons.1 hnodup).1 (hc ▸ List.mem_cons_self)
      have hsq : s ≠ q := fun hc => hql (hc ▸ List.mem_cons_self)
      exact (Function.update_of_ne hsh ..).trans ((Function.update_of_ne hsq ..).trans hfirst)
  · rw [List.getLastD_concat]
    exact Function.update_self ..
  · exact (Function.update_of_ne hqh ..).trans (Function.update_self ..)
  · exact (Function.update_of_ne hzq ..).trans (Function.update_self ..)

theorem queueInsertTail_of_ne (hq : s ≠ q) (hh : s ≠ h) (hp : s ≠ m.prev h) :
    (queueInsertTail m h q).next s = m.next s ∧ (queueInsertTail m h q).prev s = m.prev s := by
  simp only [queueInsertTail, setNext, setPrev, Function.update_self, Function.update_of_ne hq,
    Function.update_of_ne hh, Function.update_of_ne hp, and_self]

/-- The last element once more: it is in front of itself, and behind. -/
theorem queueInsertTail_last (hl : m.Onward h (s :: a ++ [q])) :
    (queueInsertTail m h q).Onward h (s :: a ++ [q]) ∧ (queueInsertTail m h q).prev q = q ∧
      (queueInsertTail m h q).next q = q := by
  obtain ⟨hnodup, ⟨y, hleads⟩, hfirst, hlast⟩ := hl
  obtain ⟨hh, hnodup'⟩ := List.nodup_cons.1 hnodup
  have hqh : q ≠ h := fun hc => hh (hc ▸ by simp)
  have hsh : s ≠ h := fun hc => hh (hc ▸ List.mem_cons_self)
  have hsq : s ≠ q := fun hc => (List.nodup_cons.1 hnodup').1 (hc ▸ by simp)
  rw [List.getLastD_concat] at hlast
  have heq : queueInsertTail m h q = ⟨Function.update (Function.update m.next q h) q q,
      Function.update (Function.update m.prev q q) h q⟩ := by
    simp only [queueInsertTail, setNext, setPrev, Function.update_self, hlast]
  rw [heq]
  refine ⟨⟨hnodup, ⟨q, hleads.retarget hnodup (fun x _ hxz => ?_) ?_⟩, ?_, ?_⟩, ?_, Function.update_self ..⟩
  · rw [List.getLastD_concat] at hxz
    exact (Function.update_of_ne hxz ..).trans (Function.update_of_ne hxz ..)
  · rw [List.getLastD_concat]
    exact Function.update_self ..
  · exact (Function.update_of_ne hsh ..).trans ((Function.update_of_ne hsq ..).trans hfirst)
  · rw [List.getLastD_concat]
    exact Function.update_self ..
  · exact (Function.update_of_ne hqh ..).trans (Function.update_self ..)

/-- An element in front of itself and behind stays where it is. -/
theorem queueRemove_self (hprev : m.prev q = q) (hnext : m.next q = q) : queueRemove m q = m := by
  simp only [queueRemove, setNext, setPrev, hprev, hnext, Function.update_self]
  rw [Function.update_eq_self_iff.2 hnext.symm, Function.update_eq_self_iff.2 hprev.symm]

/-- `QUEUE_REMOVE` of a node with the links that the last element had when the queue was `a`: whatever has come
behind `a` is lost. -/
theorem queueRemove_onward (hl : m.Onward h (a ++ b)) (ha : a ≠ []) (hprev : m.prev q = a.getLastD h)
    (hnext : m.next q = h) : (queueRemove m q).Onward h a := by
  obtain ⟨hnodup, ⟨y, hleads⟩, hfirst, -⟩ := hl
  obtain ⟨y', hleads'⟩ : ∃ y', m.Leads h a y' := by
    cases b with
    | nil => exact ⟨y, by rwa [List.append_nil] at hleads⟩
    | cons s b => exact ⟨s, (leads_append.1 hleads).1⟩
  rw [← List.cons_append] at hnodup
  have hnodup' : (h :: a).Nodup := hnodup.of_append_left
  have heq : queueRemove m q =
      ⟨Function.update m.next (a.getLastD h) h, Function.update m.prev h (a.getLastD h)⟩ := by
    have hself : Function.update m.next (a.getLastD h) h q = h := by
      by_cases hq : q = a.getLastD h
      · rw [← hq, Function.update_self]
      · rw [Function.update_of_ne hq, hnext]
    simp only [queueRemove, setNext, setPrev, hprev, hnext, hself]
  rw [heq]
  refine ⟨hnodup', ⟨h, hleads'.retarget hnodup' (fun x _ hxz => Function.update_of_ne hxz ..)
    (Function.update_self ..)⟩, ?_, Function.update_self ..⟩
  cases a with
  | nil => exact absurd rfl ha
  | cons s a =>
    have hsh : s ≠ h := fun hc => (List.nodup_cons.1 hnodup').1 (hc ▸ List.mem_cons_self)
    exact (Function.update_of_ne hsh ..).trans hfirst

end SimpleUv.Libuv
