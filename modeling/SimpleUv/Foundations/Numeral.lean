import Mathlib.Data.List.Induction
import Mathlib.Data.Nat.Digits.Defs

/-!
# Numerals

A string of digits is read from the left: `numeral b v ds` is the number that the digits `ds` in base `b`
write after the number `v`. A numeral without needless zeros in front is the one that is printed: a proper
string of digits is `Nat.toDigits` of its number (`Proper.toDigits_numeral`), and every number has one
(`exists_proper`).
-/

namespace Foundations

/-- The number written by the digits `ds` in base `b` after the number `v`. -/
def numeral (b v : ℕ) (ds : List ℕ) : ℕ := ds.foldl (fun v d => v * b + d) v

@[simp] theorem numeral_nil (b v : ℕ) : numeral b v [] = v := rfl

@[simp] theorem numeral_cons (b v d : ℕ) (ds : List ℕ) :
    numeral b v (d :: ds) = numeral b (v * b + d) ds := rfl

theorem numeral_concat (b v d : ℕ) (ds : List ℕ) :
    numeral b v (ds ++ [d]) = numeral b v ds * b + d := by
  rw [numeral, List.foldl_append]
  rfl

theorem le_numeral {b : ℕ} (hb : 0 < b) (v : ℕ) (ds : List ℕ) : v ≤ numeral b v ds := by
  induction ds generalizing v with
  | nil => exact le_rfl
  | cons d ds ih =>
    calc v ≤ v * b + d := (Nat.le_mul_of_pos_right v hb).trans (Nat.le_add_right _ d)
      _ ≤ numeral b v (d :: ds) := ih _

/-- Digits in base `b` with no zero in front, zero itself apart. -/
structure Proper (b : ℕ) (ds : List ℕ) : Prop where
  ne_nil : ds ≠ []
  lt : ∀ d ∈ ds, d < b
  lead : ∀ es, ds = 0 :: es → es = []

namespace Proper

variable {b : ℕ} {ds : List ℕ}

theorem single {d : ℕ} (hd : d < b) : Proper b [d] where
  ne_nil := List.cons_ne_nil d []
  lt e he := by rwa [List.mem_singleton.1 he]
  lead es h := (List.cons.inj h).2.symm

/-- A number that is not zero can be followed by a digit. -/
theorem concat (h : Proper b ds) (hpos : 0 < numeral b 0 ds) {d : ℕ} (hd : d < b) :
    Proper b (ds ++ [d]) where
  ne_nil := List.append_ne_nil_of_left_ne_nil h.ne_nil [d]
  lt e he := by
    rcases List.mem_append.1 he with he | he
    · exact h.lt e he
    · rwa [List.mem_singleton.1 he]
  lead es hes := by
    obtain ⟨e, fs, rfl⟩ := List.exists_cons_of_ne_nil h.ne_nil
    obtain ⟨rfl, -⟩ := List.cons.inj hes
    rw [h.lead fs rfl] at hpos
    simp only [numeral_cons, numeral_nil, Nat.zero_mul, Nat.add_zero, lt_self_iff_false] at hpos

/-- The digits in front of the last one are proper, and write a number that is not zero. -/
theorem of_concat {d : ℕ} (h : Proper b (ds ++ [d])) (hds : ds ≠ []) :
    Proper b ds ∧ 0 < numeral b 0 ds := by
  obtain ⟨e, es, rfl⟩ := List.exists_cons_of_ne_nil hds
  have he : e ≠ 0 := by
    rintro rfl
    exact List.append_ne_nil_of_right_ne_nil es (List.cons_ne_nil d []) (h.lead _ rfl)
  have hlt : ∀ f ∈ e :: es, f < b := fun f hf => h.lt f (List.mem_append_left _ hf)
  have hb : 0 < b := (Nat.zero_le e).trans_lt (hlt e List.mem_cons_self)
  refine ⟨⟨hds, hlt, fun fs hfs => absurd (List.cons.inj hfs).1 he⟩, ?_⟩
  rw [numeral_cons, Nat.zero_mul, Nat.zero_add]
  exact (Nat.pos_of_ne_zero he).trans_le (le_numeral hb e es)

/-- **A proper string of digits is what is printed for its number.** -/
theorem toDigits_numeral (hb : 1 < b) (h : Proper b ds) :
    Nat.toDigits b (numeral b 0 ds) = ds.map Nat.digitChar := by
  induction ds using List.reverseRecOn with
  | nil => exact absurd rfl h.ne_nil
  | append_singleton ds d ih =>
    have hd : d < b := h.lt d (List.mem_append_right ds List.mem_cons_self)
    rw [numeral_concat, List.map_append, List.map_singleton]
    by_cases hds : ds = []
    · rw [hds, numeral_nil, Nat.zero_mul, Nat.zero_add, List.map_nil, List.nil_append,
        Nat.toDigits_of_lt_base hd]
    · obtain ⟨hp, hpos⟩ := h.of_concat hds
      rw [Nat.mul_comm, ← Nat.toDigits_append_toDigits hb hpos hd, ih hp,
        Nat.toDigits_of_lt_base hd]

end Proper

/-- Every number is written by a proper string of digits. -/
theorem exists_proper {b : ℕ} (hb : 1 < b) (n : ℕ) : ∃ ds, Proper b ds ∧ numeral b 0 ds = n := by
  induction n using Nat.strong_induction_on with
  | h n ih =>
    by_cases hn : n < b
    · exact ⟨[n], .single hn, by rw [numeral_cons, Nat.zero_mul, Nat.zero_add, numeral_nil]⟩
    · have hle : b ≤ n := Nat.le_of_not_lt hn
      obtain ⟨ds, hds, hval⟩ := ih (n / b) (Nat.div_lt_self (by omega) hb)
      have hpos : 0 < numeral b 0 ds := by
        rw [hval]
        exact Nat.div_pos hle (by omega)
      refine ⟨ds ++ [n % b], hds.concat hpos (Nat.mod_lt n (by omega)), ?_⟩
      rw [numeral_concat, hval, Nat.mul_comm, Nat.div_add_mod]

end Foundations
