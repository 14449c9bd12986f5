import Mathlib.Data.Option.Basic
import Mathlib.Data.List.Basic

/-!
# Labelled transition systems

A system is a partial step function: `step s l = none` when the event `l` cannot happen in the
state `s`. `Along step ok s ls` says that every step taken on the schedule `ls` meets the condition
`ok`, which may look at the state before the step and at the event; `Always step P s ls` says that
every state reached on the schedule has the property `P`. Two rules connect them: an invariant kept
by the steps that meet the condition gives one direction (`always_of_along`), and a property that is
lost as soon as the condition fails gives both (`always_iff_along`).
-/

namespace Foundations

variable {σ ℓ : Type*}

/-- The state after a schedule, when all its events can happen in turn. -/
def exec (step : σ → ℓ → Option σ) : σ → List ℓ → Option σ
  | s, [] => some s
  | s, l :: ls => (step s l).bind fun t => exec step t ls

/-- Every step taken on the schedule meets the condition. -/
def Along (step : σ → ℓ → Option σ) (ok : σ → ℓ → Prop) : σ → List ℓ → Prop
  | _, [] => True
  | s, l :: ls => ∀ t, step s l = some t → ok s l ∧ Along step ok t ls

/-- Every state reached on the schedule has the property. -/
def Always (step : σ → ℓ → Option σ) (P : σ → Prop) : σ → List ℓ → Prop
  | s, [] => P s
  | s, l :: ls => P s ∧ ∀ t, step s l = some t → Always step P t ls

/-- Every event of the schedule meets the condition when its turn comes, also one that cannot happen. -/
def Throughout (step : σ → ℓ → Option σ) (ok : σ → ℓ → Prop) : σ → List ℓ → Prop
  | _, [] => True
  | s, l :: ls => ok s l ∧ ∀ t, step s l = some t → Throughout step ok t ls

section Rules

variable {step : σ → ℓ → Option σ} {ok : σ → ℓ → Prop} {I P : σ → Prop} {s t : σ}
  {l : ℓ} {ls ms : List ℓ}

@[simp] theorem exec_nil : exec step s [] = some s := rfl

theorem exec_cons (h : step s l = some t) : exec step s (l :: ls) = exec step t ls := by
  simp only [exec, h, Option.bind_some]

theorem exec_append : exec step s (ls ++ ms) = (exec step s ls).bind fun t => exec step t ms := by
  induction ls generalizing s with
  | nil => rfl
  | cons l ls ih =>
    simp only [List.cons_append, exec]
    cases step s l with
    | none => rfl
    | some t => exact ih

theorem exec_append_of_exec (h : exec step s ls = some t) :
    exec step s (ls ++ ms) = exec step t ms := by
  rw [exec_append, h, Option.bind_some]

theorem Always.here (h : Always step P s ls) : P s := by
  cases ls with
  | nil => exact h
  | cons l ls => exact h.1

theorem Always.of_exec (h : Always step P s (ls ++ ms)) (he : exec step s ls = some t) :
    Always step P t ms := by
  induction ls generalizing s with
  | nil =>
    cases he
    exact h
  | cons l ls ih =>
    obtain ⟨u, hu, he⟩ := Option.bind_eq_some_iff.1 he
    exact ih (h.2 u hu) he

/-- What always holds on a schedule holds at its end. -/
theorem Always.last (h : Always step P s ls) (he : exec step s ls = some t) : P t :=
  (Always.of_exec ((List.append_nil ls).symm ▸ h) he).here

/-- Properties that hold in every state and follow from another. -/
theorem Always.mono {Q : σ → Prop} (hPQ : ∀ s, P s → Q s) (h : Always step P s ls) :
    Always step Q s ls := by
  induction ls generalizing s with
  | nil => exact hPQ s h
  | cons l ls ih => exact ⟨hPQ s h.1, fun t ht => ih (h.2 t ht)⟩

theorem Along.cons (h : step s l = some t) (hok : ok s l) (hrest : Along step ok t ls) :
    Along step ok s (l :: ls) := by
  intro u hu
  rw [h] at hu
  cases hu
  exact ⟨hok, hrest⟩

theorem Along.append (h : Along step ok s ls) (hrest : ∀ t, exec step s ls = some t → Along step ok t ms) :
    Along step ok s (ls ++ ms) := by
  induction ls generalizing s with
  | nil => exact hrest s rfl
  | cons l ls ih =>
    intro t ht
    obtain ⟨hok, h⟩ := h t ht
    exact ⟨hok, ih h fun u hu => hrest u ((exec_cons ht).trans hu)⟩

theorem Along.of_forall (h : ∀ s, ∀ l ∈ ls, ok s l) (s : σ) : Along step ok s ls := by
  induction ls generalizing s with
  | nil => trivial
  | cons l ls ih =>
    exact fun t _ => ⟨h s l List.mem_cons_self, ih (fun s m hm => h s m (List.mem_cons_of_mem l hm)) t⟩

theorem Along.and {ok' : σ → ℓ → Prop} (h : Along step ok s ls) (h' : Along step ok' s ls) :
    Along step (fun s l => ok s l ∧ ok' s l) s ls := by
  induction ls generalizing s with
  | nil => trivial
  | cons l ls ih =>
    intro t ht
    exact ⟨⟨(h t ht).1, (h' t ht).1⟩, ih (h t ht).2 (h' t ht).2⟩

/-- A condition on the events holds at every step. -/
theorem Along.and_mem {A : ℓ → Prop} (h : Along step ok s ls) (hA : ∀ l ∈ ls, A l) :
    Along step (fun s l => ok s l ∧ A l) s ls := by
  induction ls generalizing s with
  | nil => trivial
  | cons l ls ih =>
    intro t ht
    obtain ⟨hok, hrest⟩ := h t ht
    exact ⟨⟨hok, hA l List.mem_cons_self⟩, ih hrest fun m hm => hA m (List.mem_cons_of_mem l hm)⟩

/-- **The invariant rule.** -/
theorem always_of_along (hstep : ∀ s l t, I s → ok s l → step s l = some t → I t) (hI : I s)
    (h : Along step ok s ls) : Always step I s ls := by
  induction ls generalizing s with
  | nil => exact hI
  | cons l ls ih =>
    refine ⟨hI, fun t ht => ?_⟩
    obtain ⟨hok, hrest⟩ := h t ht
    exact ih (hstep s l t hI hok ht) hrest

/-- The invariant rule for an invariant that every step keeps. -/
theorem always_of_step (hstep : ∀ s l t, I s → step s l = some t → I t) (hI : I s)
    (ls : List ℓ) : Always step I s ls := by
  induction ls generalizing s with
  | nil => exact hI
  | cons l ls ih => exact ⟨hI, fun t ht => ih (hstep s l t hI ht)⟩

/-- **What is lost for good** was never lost when it holds at the end. -/
theorem always_of_last (hstep : ∀ s l t, I s → step s l = some t → I t)
    (hlost : ∀ s l t, I s → ¬ P s → step s l = some t → ¬ P t) (hI : I s)
    (he : exec step s ls = some t) (hP : P t) : Always step P s ls := by
  have hhere : ∀ {s ls}, I s → exec step s ls = some t → P s := by
    intro s ls hI he
    by_contra hs
    have hkeep : ∀ s l t, I s ∧ ¬ P s → step s l = some t → I t ∧ ¬ P t :=
      fun s l t h ht => ⟨hstep s l t h.1 ht, hlost s l t h.1 h.2 ht⟩
    exact ((always_of_step hkeep ⟨hI, hs⟩ ls).last he).2 hP
  induction ls generalizing s with
  | nil => exact hhere hI he
  | cons l ls ih =>
    refine ⟨hhere hI he, fun u hu => ih (hstep s l u hI hu) ?_⟩
    rwa [exec_cons hu] at he

/-- With an invariant at hand, a condition on the steps gives another one. -/
theorem Along.imp {ok' : σ → ℓ → Prop} (h : Along step ok s ls)
    (hstep : ∀ s l t, I s → ok s l → step s l = some t → I t)
    (himp : ∀ s l, I s → ok s l → ok' s l) (hI : I s) : Along step ok' s ls := by
  induction ls generalizing s with
  | nil => trivial
  | cons l ls ih =>
    intro t ht
    obtain ⟨hok, hrest⟩ := h t ht
    exact ⟨himp s l hI hok, ih hrest (hstep s l t hI hok ht)⟩

theorem Throughout.cons (h : step s l = some t) (hok : ok s l) (hrest : Throughout step ok t ls) :
    Throughout step ok s (l :: ls) := by
  refine ⟨hok, fun u hu => ?_⟩
  rw [h] at hu
  cases hu
  exact hrest

/-- The condition holds of an event in the state that the events before it lead to. -/
theorem Throughout.of_exec (h : Throughout step ok s (ls ++ l :: ms)) (hexec : exec step s ls = some t) :
    ok t l := by
  induction ls generalizing s with
  | nil =>
    cases hexec
    exact h.1
  | cons m ls ih =>
    obtain ⟨u, hu, hexec⟩ := Option.bind_eq_some_iff.1 hexec
    exact ih (h.2 u hu) hexec

/-- With an invariant at hand, a condition on the events gives another one. -/
theorem Throughout.imp {ok' : σ → ℓ → Prop} (h : Throughout step ok s ls)
    (hstep : ∀ s l t, I s → ok s l → step s l = some t → I t)
    (himp : ∀ s l, I s → ok s l → ok' s l) (hI : I s) : Throughout step ok' s ls := by
  induction ls generalizing s with
  | nil => trivial
  | cons l ls ih =>
    exact ⟨himp s l hI h.1, fun t ht => ih (h.2 t ht) (hstep s l t hI h.1 ht)⟩

/-- **A condition is exact** when steps that meet it keep the invariant, and a step that does not
loses the property. The events may be restricted. -/
theorem always_iff_along {A : ℓ → Prop}
    (hstep : ∀ s l t, I s → A l → ok s l → step s l = some t → I t)
    (hloss : ∀ s l t, I s → A l → ¬ ok s l → step s l = some t → ¬ P t) (hP : ∀ s, I s → P s)
    (hI : I s) (hA : ∀ l ∈ ls, A l) : Always step P s ls ↔ Along step ok s ls := by
  induction ls generalizing s with
  | nil => exact ⟨fun _ => trivial, fun _ => hP s hI⟩
  | cons l ls ih =>
    have hl := hA l List.mem_cons_self
    have hls := fun m hm => hA m (List.mem_cons_of_mem l hm)
    constructor
    · intro h t ht
      by_cases hok : ok s l
      · exact ⟨hok, (ih (hstep s l t hI hl hok ht) hls).1 (h.2 t ht)⟩
      · exact absurd (h.2 t ht).here (hloss s l t hI hl hok ht)
    · intro h
      refine ⟨hP s hI, fun t ht => ?_⟩
      obtain ⟨hok, hrest⟩ := h t ht
      exact (ih (hstep s l t hI hl hok ht) hls).2 hrest

/-- **Two conditions on the steps** that agree as long as the steps meet them. The runs may be
restricted. -/
theorem along_iff_along {A safe : σ → ℓ → Prop}
    (hstep : ∀ s l t, I s → A s l → ok s l → step s l = some t → I t)
    (hiff : ∀ s l t, I s → A s l → step s l = some t → (safe s l ↔ ok s l)) (hI : I s)
    (hA : Along step A s ls) : Along step safe s ls ↔ Along step ok s ls := by
  induction ls generalizing s with
  | nil => exact Iff.rfl
  | cons l ls ih =>
    refine forall_congr' fun t => forall_congr' fun ht => ?_
    obtain ⟨hl, hls⟩ := hA t ht
    rw [hiff s l t hI hl ht]
    exact and_congr_right fun hok => ih (hstep s l t hI hl hok ht) hls

end Rules

end Foundations
