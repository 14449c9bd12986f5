import Mathlib.Data.List.Basic
import Mathlib.Data.List.Count
import Mathlib.Data.List.Nodup

/-!
# Interleaved messages

Several senders append portions of their messages to one list, in which every element carries the
number of its message. The list is `Contiguous` when it is a sequence of whole messages, with at most
the last one cut off. It stays so when the next portion belongs to a message and no other message is in
the middle (`Contiguous.append`).
-/

namespace Foundations

variable {ι α : Type*}

/-- A message whose elements carry its number. -/
def tagged (k : ι) (xs : List α) : List (ι × α) := xs.map (Prod.mk k)

theorem mem_tagged {k : ι} {xs : List α} (h : xs ≠ []) : k ∈ (tagged k xs).map Prod.fst := by
  cases xs with
  | nil => exact absurd rfl h
  | cons x xs => exact List.mem_cons_self

/-- The messages of the given numbers, one behind the other. -/
def messages (message : ι → List α) (ks : List ι) : List (ι × α) :=
  ks.flatMap fun k => tagged k (message k)

section Tally

variable [DecidableEq ι]

/-- How many elements of a message are there. -/
def got (k : ι) (l : List (ι × α)) : ℕ := l.countP fun b => b.1 = k

theorem got_append (k : ι) (l₁ l₂ : List (ι × α)) : got k (l₁ ++ l₂) = got k l₁ + got k l₂ :=
  List.countP_append

theorem got_tagged_self (k : ι) (xs : List α) : got k (tagged k xs) = xs.length := by
  rw [got, tagged, List.countP_map]
  exact List.countP_eq_length.2 fun x _ => decide_eq_true rfl

theorem got_tagged_of_ne {j k : ι} (h : j ≠ k) (xs : List α) : got k (tagged j xs) = 0 := by
  rw [got, tagged, List.countP_map]
  exact List.countP_eq_zero.2 fun x _ => by simpa using h

theorem got_messages {message : ι → List α} {ks : List ι} (hks : ks.Nodup) (k : ι) :
    got k (messages message ks) = if k ∈ ks then (message k).length else 0 := by
  induction ks with
  | nil => rfl
  | cons j ks ih =>
    obtain ⟨hj, hks⟩ := List.nodup_cons.1 hks
    rw [messages, List.flatMap_cons, got_append]
    show _ + got k (messages message ks) = _
    rw [ih hks]
    by_cases h : j = k
    · subst h
      rw [got_tagged_self, if_neg hj, if_pos List.mem_cons_self, Nat.add_zero]
    · rw [got_tagged_of_ne h, Nat.zero_add]
      simp only [List.mem_cons, Ne.symm h, false_or]

end Tally

/-- Whole messages of different numbers, and a part of one more. -/
inductive Contiguous (message : ι → List α) : List (ι × α) → Prop
  | whole {ks : List ι} (hks : ks.Nodup) (hne : ∀ k ∈ ks, message k ≠ []) :
      Contiguous message (messages message ks)
  | cut {ks : List ι} {k : ι} {n : ℕ} (hks : (ks ++ [k]).Nodup) (hne : ∀ k ∈ ks, message k ≠ [])
      (hn : 0 < n) (hlt : n < (message k).length) :
      Contiguous message (messages message ks ++ tagged k ((message k).take n))

namespace Contiguous

variable {message message' : ι → List α} {l : List (ι × α)}

theorem nil : Contiguous message [] := .whole (List.nodup_nil : ([] : List ι).Nodup) nofun

theorem messages_append (ks : List ι) (k : ι) :
    messages message (ks ++ [k]) = messages message ks ++ tagged k (message k) := by
  rw [messages, List.flatMap_append, List.flatMap_singleton]
  rfl

theorem messages_congr {ks : List ι} (h : ∀ k ∈ ks, message' k = message k) :
    messages message' ks = messages message ks :=
  List.flatMap_congr fun k hk => by rw [h k hk]

/-- It is a prefix of a sequence of whole messages. -/
theorem exists_prefix (h : Contiguous message l) : ∃ ks : List ι, ks.Nodup ∧ l <+: messages message ks := by
  cases h with
  | whole hks hne => exact ⟨_, hks, List.prefix_rfl⟩
  | @cut ks k n hks hne hn hlt =>
    refine ⟨_, hks, ?_⟩
    rw [messages_append]
    exact List.prefix_append_right_inj _ |>.2 ((List.take_prefix n _).map _)

/-- New messages do not matter. -/
theorem congr (h : Contiguous message l) (hm : ∀ k, message k ≠ [] → message' k = message k) :
    Contiguous message' l := by
  cases h with
  | whole hks hne =>
    rw [← messages_congr fun k hk => hm k (hne k hk)]
    exact .whole hks fun k hk => by
      rw [hm k (hne k hk)]
      exact hne k hk
  | @cut ks k n hks hne hn hlt =>
    have hk : message' k = message k := hm k (List.ne_nil_of_length_pos (by omega))
    rw [← messages_congr fun k hk => hm k (hne k hk), ← hk]
    refine .cut hks (fun k hk => ?_) hn (by rwa [hk])
    rw [hm k (hne k hk)]
    exact hne k hk

theorem tagged_take_append (k : ι) (xs : List α) (n m : ℕ) :
    tagged k (xs.take n) ++ tagged k ((xs.drop n).take m) = tagged k (xs.take (n + m)) := by
  rw [tagged, tagged, tagged, ← List.map_append, List.take_add]

/-- The last message goes on, perhaps to its end. -/
theorem extend {ks : List ι} {k : ι} {n m : ℕ} (hks : (ks ++ [k]).Nodup)
    (hne : ∀ k ∈ ks, message k ≠ []) (hm : 0 < m) (hle : n + m ≤ (message k).length) :
    Contiguous message (messages message ks ++ tagged k ((message k).take n) ++
      tagged k (((message k).drop n).take m)) := by
  rw [List.append_assoc, tagged_take_append]
  rcases Nat.lt_or_eq_of_le hle with hlt | heq
  · exact .cut hks hne (by omega) hlt
  · rw [heq, List.take_length, ← messages_append]
    refine .whole hks fun j hj => ?_
    rcases List.mem_append.1 hj with hj | hj
    · exact hne j hj
    · rw [List.mem_singleton.1 hj]
      exact List.ne_nil_of_length_pos (by omega)

/-- **The next portion of a message keeps the list contiguous** when no other message is in the
middle. -/
theorem append [DecidableEq ι] (h : Contiguous message l) {c : ι} {m : ℕ} (hm : 0 < m)
    (hle : got c l + m ≤ (message c).length)
    (hothers : ∀ k, k ≠ c → got k l = 0 ∨ got k l = (message k).length) :
    Contiguous message (l ++ tagged c (((message c).drop (got c l)).take m)) := by
  cases h with
  | @whole ks hks hne =>
    have hc : c ∉ ks := fun hc => by
      rw [got_messages hks, if_pos hc] at hle
      omega
    rw [got_messages hks, if_neg hc] at hle ⊢
    have hnew := extend (n := 0) (List.nodup_append_comm.1 (List.nodup_cons.2 ⟨hc, hks⟩)) hne hm hle
    rwa [List.take_zero, tagged, List.map_nil, List.append_nil] at hnew
  | @cut ks k n hks hne hn hlt =>
    have hk : k ∉ ks := (List.nodup_cons.1 (List.nodup_append_comm.1 hks)).1
    have hgot : got k (messages message ks ++ tagged k ((message k).take n)) = n := by
      rw [got_append, got_messages (hks.sublist (List.sublist_append_left ks [k])), if_neg hk,
        got_tagged_self, List.length_take]
      omega
    have hkc : k = c := by
      by_contra hkc
      have := hothers k hkc
      omega
    subst hkc
    rw [hgot] at hle ⊢
    exact extend hks hne hm hle

end Contiguous

/-- A sequence of whole messages does not come back to a message. -/
theorem no_return {message : ι → List α} {ks : List ι} (hks : ks.Nodup) {j k : ι} (h : j ≠ k) :
    ¬ [j, k, j].Sublist ((messages message ks).map Prod.fst) := by
  induction ks with
  | nil => exact nofun
  | cons i ks ih =>
    obtain ⟨hi, hks⟩ := List.nodup_cons.1 hks
    have hrest : i ∉ (messages message ks).map Prod.fst := by
      intro hmem
      obtain ⟨b, hb, rfl⟩ := List.mem_map.1 hmem
      obtain ⟨k', hk', hb⟩ := List.mem_flatMap.1 hb
      obtain ⟨x, -, rfl⟩ := List.mem_map.1 hb
      exact hi hk'
    have hfirst : ∀ x ∈ (tagged i (message i)).map Prod.fst, x = i := by
      intro x hx
      obtain ⟨b, hb, rfl⟩ := List.mem_map.1 hx
      obtain ⟨y, -, rfl⟩ := List.mem_map.1 hb
      rfl
    intro hsub
    rw [messages, List.flatMap_cons, List.map_append] at hsub
    obtain ⟨l₁, l₂, hl, h₁, h₂⟩ := List.sublist_append_iff.1 hsub
    match l₁, hl with
    | [], hl => exact ih hks (hl ▸ h₂)
    | [_], rfl => exact hrest (hfirst _ (h₁.subset List.mem_cons_self) ▸ h₂.subset (by simp))
    | a :: b :: l, hl =>
      obtain ⟨rfl, rfl, -⟩ : j = a ∧ k = b ∧ _ := by simpa using hl
      exact h ((hfirst j (h₁.subset (by simp))).trans (hfirst k (h₁.subset (by simp))).symm)

end Foundations
