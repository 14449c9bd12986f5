import SimpleUv.Foundations.Transition
import Mathlib.Data.Nat.Find

/-!
# Infinite runs

A behaviour of a system is an infinite run, whose turns may be without an event. What every turn keeps
holds from then on (`Behaviour.keep`), and what a rank counts down to is reached, when the rank never
grows and shrinks again and again (`eventually_of_rank`). The behaviour in which one event happens
again and again is `repeated`.
-/

namespace Foundations

variable {σ ℓ : Type*}

/-- An infinite run. -/
def Behaviour (step : σ → ℓ → Option σ) (ss : ℕ → σ) (es : ℕ → Option ℓ) : Prop :=
  ∀ n, es n = none ∧ ss (n + 1) = ss n ∨ ∃ e, es n = some e ∧ step (ss n) e = some (ss (n + 1))

section Rules

variable {step : σ → ℓ → Option σ} {ss : ℕ → σ} {es : ℕ → Option ℓ}

theorem Behaviour.step_of_event (h : Behaviour step ss es) {n : ℕ} {e : ℓ} (he : es n = some e) :
    step (ss n) e = some (ss (n + 1)) := by
  rcases h n with ⟨hnone, -⟩ | ⟨e', he', hstep⟩
  · rw [he] at hnone
    cases hnone
  · rw [he] at he'
    cases he'
    exact hstep

/-- **The invariant rule** for infinite runs, from a turn on. -/
theorem Behaviour.keep (h : Behaviour step ss es) {I : σ → Prop} {a : ℕ}
    (hstep : ∀ n e, a ≤ n → es n = some e → I (ss n) → step (ss n) e = some (ss (n + 1)) →
      I (ss (n + 1))) (ha : I (ss a)) {n : ℕ} (hn : a ≤ n) : I (ss n) := by
  induction n, hn using Nat.le_induction with
  | base => exact ha
  | succ n hn ih =>
    rcases h n with ⟨-, hsame⟩ | ⟨e, he, hnext⟩
    · rwa [hsame]
    · exact hstep n e hn he ih hnext

/-- What the other events keep holds when an event that is to come happens for the first time. -/
theorem Behaviour.until_event (h : Behaviour step ss es) {I : σ → Prop} {a : ℕ} {e : ℓ}
    (hstep : ∀ n e', a ≤ n → es n = some e' → e' ≠ e → I (ss n) → step (ss n) e' = some (ss (n + 1)) →
      I (ss (n + 1))) (ha : I (ss a)) (hevent : ∃ n, a ≤ n ∧ es n = some e) :
    ∃ n, a ≤ n ∧ es n = some e ∧ I (ss n) := by
  classical
  refine ⟨Nat.find hevent, (Nat.find_spec hevent).1, (Nat.find_spec hevent).2, ?_⟩
  suffices hall : ∀ n, a ≤ n → n ≤ Nat.find hevent → I (ss n) from
    hall _ (Nat.find_spec hevent).1 (Nat.le_refl _)
  intro n hn
  induction n, hn using Nat.le_induction with
  | base => exact fun _ => ha
  | succ n hn ih =>
    intro hle
    have hI := ih (by omega)
    rcases h n with ⟨-, hsame⟩ | ⟨e', he', hnext⟩
    · rwa [hsame]
    · refine hstep n e' hn he' (fun hc => ?_) hI hnext
      exact Nat.find_min hevent (by omega) ⟨hn, hc ▸ he'⟩

/-- **The progress rule.** -/
theorem eventually_of_rank {P : ℕ → Prop} {a : ℕ} (rank : ℕ → ℕ)
    (hkeep : ∀ n, a ≤ n → ¬ P (n + 1) → rank (n + 1) ≤ rank n)
    (hdrop : ∀ n, a ≤ n → ¬ P n → ∃ m, n ≤ m ∧ (P (m + 1) ∨ rank (m + 1) < rank m)) :
    ∃ n, a ≤ n ∧ P n := by
  by_contra hnever
  push Not at hnever
  have hanti : ∀ n, a ≤ n → ∀ m, n ≤ m → rank m ≤ rank n := by
    intro n hn m hm
    induction m, hm using Nat.le_induction with
    | base => exact Nat.le_refl _
    | succ m hm ih => exact Nat.le_trans (hkeep m (by omega) (hnever _ (by omega))) ih
  have hfalse : ∀ k n, a ≤ n → rank n = k → False := by
    intro k
    induction k using Nat.strong_induction_on with
    | _ k ih =>
      rintro n hn rfl
      obtain ⟨m, hm, hP | hlt⟩ := hdrop n hn (hnever n hn)
      · exact hnever _ (by omega) hP
      · exact ih _ (Nat.lt_of_lt_of_le hlt (hanti n hn m hm)) (m + 1) (by omega) rfl
  exact hfalse _ a (Nat.le_refl a) rfl

end Rules

/-! ## One event again and again -/

/-- A sequence with a term in front. -/
def prepend {α : Type*} (a : α) (f : ℕ → α) : ℕ → α
  | 0 => a
  | n + 1 => f n

/-- The states when one event happens whenever it can. -/
def repeated (step : σ → ℓ → Option σ) (e : ℓ) (s : σ) : ℕ → σ
  | 0 => s
  | n + 1 => (step (repeated step e s n) e).getD (repeated step e s n)

/-- Its turns. -/
def repeatedEvents (step : σ → ℓ → Option σ) (e : ℓ) (s : σ) (n : ℕ) : Option ℓ :=
  (step (repeated step e s n) e).map fun _ => e

/-- The states of a schedule, and the last one for ever. -/
def finiteRun (step : σ → ℓ → Option σ) (s : σ) (ls : List ℓ) (n : ℕ) : σ :=
  (exec step s (ls.take n)).getD s

theorem behaviour_finiteRun {step : σ → ℓ → Option σ} {s t : σ} {ls : List ℓ} (h : exec step s ls = some t) :
    Behaviour step (finiteRun step s ls) (fun n => ls[n]?) := by
  intro n
  rcases Nat.lt_or_ge n ls.length with hn | hn
  · refine .inr ⟨ls[n], List.getElem?_eq_getElem hn, ?_⟩
    have hsplit := h
    rw [← List.take_append_drop n ls, exec_append] at hsplit
    obtain ⟨u, hu, hrest⟩ := Option.bind_eq_some_iff.1 hsplit
    rw [List.drop_eq_getElem_cons hn] at hrest
    obtain ⟨v, hv, -⟩ := Option.bind_eq_some_iff.1 hrest
    have hnext : exec step s (ls.take (n + 1)) = some v := by
      rw [List.take_succ_eq_append_getElem hn, exec_append_of_exec hu, exec_cons hv, exec_nil]
    rw [finiteRun, finiteRun, hu, hnext]
    exact hv
  · refine .inl ⟨List.getElem?_eq_none hn, ?_⟩
    rw [finiteRun, finiteRun, List.take_of_length_le hn, List.take_of_length_le (by omega)]

section Repeated

variable {step : σ → ℓ → Option σ} {ss : ℕ → σ} {es : ℕ → Option ℓ} {e : ℓ} {s : σ}

theorem behaviour_repeated (step : σ → ℓ → Option σ) (e : ℓ) (s : σ) :
    Behaviour step (repeated step e s) (repeatedEvents step e s) := by
  intro n
  unfold repeatedEvents
  rw [repeated]
  cases hstep : step (repeated step e s n) e with
  | none => exact .inl ⟨rfl, rfl⟩
  | some t => exact .inr ⟨e, rfl, hstep⟩

theorem repeatedEvents_of_step {n : ℕ} {t : σ} (h : step (repeated step e s n) e = some t) :
    repeatedEvents step e s n = some e := by
  rw [repeatedEvents, h, Option.map_some]

theorem eq_of_repeatedEvents {n : ℕ} {e' : ℓ} (h : repeatedEvents step e s n = some e') : e' = e := by
  obtain ⟨t, -, rfl⟩ := Option.map_eq_some_iff.1 h
  rfl

theorem Behaviour.prepend (h : Behaviour step ss es) (hstep : step s e = some (ss 0)) :
    Behaviour step (prepend s ss) (prepend (some e) es) := by
  intro n
  cases n with
  | zero => exact .inr ⟨e, rfl, hstep⟩
  | succ n => exact h n

end Repeated

end Foundations
