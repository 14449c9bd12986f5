import Mathlib.Data.Option.Basic

/-!
# Machines that answer

A machine takes a call and returns its next state and an answer, or fails: `step s c = none` when the
call cannot be carried out. A specification is a machine that never fails. `Simulates step spec R`
says that every call, in states that `R` relates, is carried out and answered as the specification
answers it, in states that `R` relates again; `Simulates.run` carries this over to every sequence of
calls.
-/

namespace Foundations

variable {σ τ γ ω : Type*}

/-- The state after a sequence of calls, and the answers. -/
def answers (step : σ → γ → Option (σ × ω)) : σ → List γ → Option (σ × List ω)
  | s, [] => some (s, [])
  | s, c :: cs => do
    let (s, answer) ← step s c
    let (s, rest) ← answers step s cs
    some (s, answer :: rest)

/-- What a specification answers to a sequence of calls. -/
def specified (spec : τ → γ → τ × ω) : τ → List γ → τ × List ω
  | t, [] => (t, [])
  | t, c :: cs =>
    let next := spec t c
    let rest := specified spec next.1 cs
    (rest.1, next.2 :: rest.2)

/-- In related states, every call is carried out as specified. -/
def Simulates (step : σ → γ → Option (σ × ω)) (spec : τ → γ → τ × ω) (R : σ → τ → Prop) : Prop :=
  ∀ s t c, R s t → ∃ s', step s c = some (s', (spec t c).2) ∧ R s' (spec t c).1

/-- **Every sequence of calls is carried out as specified.** -/
theorem Simulates.run {step : σ → γ → Option (σ × ω)} {spec : τ → γ → τ × ω} {R : σ → τ → Prop}
    (h : Simulates step spec R) {s : σ} {t : τ} (hR : R s t) (cs : List γ) :
    ∃ s', answers step s cs = some (s', (specified spec t cs).2) ∧ R s' (specified spec t cs).1 := by
  induction cs generalizing s t with
  | nil => exact ⟨s, rfl, hR⟩
  | cons c cs ih =>
    obtain ⟨u, hu, hR⟩ := h s t c hR
    obtain ⟨v, hv, hR⟩ := ih hR
    refine ⟨v, ?_, hR⟩
    simp only [answers, hu, hv, Option.bind_eq_bind, Option.bind_some, specified]

end Foundations
