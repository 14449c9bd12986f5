import Mathlib.Data.List.Basic
import Mathlib.Data.List.Infix
import Mathlib.Tactic.Ring

/-!
# Decoders of unbounded streams

A decoder looks at the bytes received so far and either waits, or decides to drop a positive
number of them, with or without emitting a value. A decision is *stable*: more input never
changes it. From this alone follows what an incremental reader needs: the values emitted on a
stream do not depend on how it is cut (`run_append`), they only grow with the input
(`run_fst_prefix`), and whoever takes decisions of the decoder, in whatever portions, ends with
its values (`Steps.run_eq`).

`Steps xs out ys` is the small-step view: decisions lead from the stream `xs` to its remainder
`ys` and emit `out`. `run` is the executable view.
-/

namespace Foundations

/-- A decoder of streams over `α` that emits values of `β`. `decide xs = none` waits for more
input; `decide xs = some (n, o)` drops the first `n` elements and emits `o`. -/
structure Decoder (α β : Type*) where
  decide : List α → Option (ℕ × Option β)
  pos : ∀ {xs n o}, decide xs = some (n, o) → 0 < n ∧ n ≤ xs.length
  stable : ∀ {xs r} (ys), decide xs = some r → decide (xs ++ ys) = some r

namespace Decoder

variable {α β : Type*} (D : Decoder α β)

/-- Decisions of the decoder lead from the stream `xs` to its remainder `ys`, emitting `out`. -/
inductive Steps : List α → List β → List α → Prop
  | refl (xs : List α) : Steps xs [] xs
  | step {xs : List α} {n : ℕ} {o : Option β} {out : List β} {ys : List α}
      (h : D.decide xs = some (n, o)) (hs : Steps (xs.drop n) out ys) :
      Steps xs (o.toList ++ out) ys

/-- Decode with a bound on the number of decisions. -/
def runFuel : ℕ → List α → List β × List α
  | 0, xs => ([], xs)
  | k + 1, xs =>
    match D.decide xs with
    | none => ([], xs)
    | some (n, o) =>
      let r := runFuel k (xs.drop n)
      (o.toList ++ r.1, r.2)

/-- The values emitted on a stream, and the remainder the decoder waits on. A decision drops at
least one element, so the length of the stream bounds their number. -/
def run (xs : List α) : List β × List α := D.runFuel xs.length xs

variable {D}

namespace Steps

theorem one {xs : List α} {n : ℕ} {o : Option β} (h : D.decide xs = some (n, o)) :
    D.Steps xs o.toList (xs.drop n) := by
  simpa using Steps.step h (Steps.refl _)

theorem trans {xs ys zs : List α} {out₁ out₂ : List β} (h₁ : D.Steps xs out₁ ys)
    (h₂ : D.Steps ys out₂ zs) : D.Steps xs (out₁ ++ out₂) zs := by
  induction h₁ with
  | refl xs => simpa using h₂
  | step h _ ih =>
    rw [List.append_assoc]
    exact Steps.step h (ih h₂)

/-- Decisions stay what they are when more input follows. -/
theorem append {xs ys : List α} {out : List β} (h : D.Steps xs out ys) (zs : List α) :
    D.Steps (xs ++ zs) out (ys ++ zs) := by
  induction h with
  | refl xs => exact .refl _
  | step hd _ ih =>
    refine .step (D.stable zs hd) ?_
    rwa [List.drop_append_of_le_length (D.pos hd).2]

/-- Every emitted value is a decision on a rest of the stream. -/
theorem of_mem {xs ys : List α} {out : List β} (h : D.Steps xs out ys) {y : β} (hy : y ∈ out) :
    ∃ k n, D.decide (xs.drop k) = some (n, some y) := by
  induction h with
  | refl xs => cases hy
  | @step xs n o out ys hd _ ih =>
    rcases List.mem_append.1 hy with hy | hy
    · rw [Option.mem_toList] at hy
      exact ⟨0, n, by rw [List.drop_zero, hd, hy]⟩
    · obtain ⟨k, m, hk⟩ := ih hy
      exact ⟨n + k, m, by rwa [← List.drop_drop]⟩

end Steps

/-! ## The executable run -/

theorem steps_runFuel (k : ℕ) (xs : List α) :
    D.Steps xs (D.runFuel k xs).1 (D.runFuel k xs).2 := by
  induction k generalizing xs with
  | zero => exact .refl _
  | succ k ih =>
    simp only [runFuel]
    split
    · exact .refl _
    · next h => exact .step h (ih _)

theorem decide_runFuel {k : ℕ} {xs : List α} (hk : xs.length ≤ k) :
    D.decide (D.runFuel k xs).2 = none := by
  induction k generalizing xs with
  | zero =>
    obtain rfl : xs = [] := by simpa using hk
    simp only [runFuel]
    cases h : D.decide [] with
    | none => rfl
    | some r =>
      have := @D.pos _ r.1 r.2 h
      simp only [List.length_nil] at this
      omega
  | succ k ih =>
    simp only [runFuel]
    split
    · assumption
    · next n o h =>
      have := D.pos h
      exact ih (by rw [List.length_drop]; omega)

theorem steps_run (xs : List α) : D.Steps xs (D.run xs).1 (D.run xs).2 := steps_runFuel _ _

/-- The run stops only where the decoder waits. -/
theorem decide_run (xs : List α) : D.decide (D.run xs).2 = none := decide_runFuel le_rfl

/-- Two runs of decisions down to a wait agree. -/
theorem Steps.deterministic {xs ys zs : List α} {out out' : List β} (h : D.Steps xs out ys)
    (hy : D.decide ys = none) (h' : D.Steps xs out' zs) (hz : D.decide zs = none) :
    out = out' ∧ ys = zs := by
  induction h generalizing out' with
  | refl xs =>
    cases h' with
    | refl => exact ⟨rfl, rfl⟩
    | step hd _ => simp [hd] at hy
  | step hd _ ih =>
    cases h' with
    | refl => simp [hd] at hz
    | step hd' hs' =>
      obtain ⟨rfl, rfl⟩ := Prod.mk.inj (Option.some.inj (hd.symm.trans hd'))
      obtain ⟨rfl, rfl⟩ := ih hy hs'
      exact ⟨rfl, rfl⟩

theorem run_eq_of_steps {xs ys : List α} {out : List β} (h : D.Steps xs out ys)
    (hy : D.decide ys = none) : D.run xs = (out, ys) := by
  obtain ⟨h₁, h₂⟩ := (steps_run xs).deterministic (decide_run xs) h hy
  exact Prod.ext h₁ h₂

/-- **Whoever takes decisions of the decoder ends with its values.** -/
theorem Steps.run_eq {xs ys : List α} {out : List β} (h : D.Steps xs out ys) :
    D.run xs = (out ++ (D.run ys).1, (D.run ys).2) :=
  run_eq_of_steps (h.trans (steps_run ys)) (decide_run ys)

theorem run_of_decide_none {xs : List α} (h : D.decide xs = none) : D.run xs = ([], xs) :=
  run_eq_of_steps (.refl xs) h

/-- **The run does not depend on how the stream is cut**: it may stop anywhere and resume on the
remainder once more input is there. -/
theorem run_append (xs ys : List α) :
    D.run (xs ++ ys) = ((D.run xs).1 ++ (D.run ((D.run xs).2 ++ ys)).1,
      (D.run ((D.run xs).2 ++ ys)).2) :=
  ((steps_run xs).append ys).run_eq

/-- The emitted values only grow with the input. -/
theorem run_fst_prefix (xs ys : List α) : (D.run xs).1 <+: (D.run (xs ++ ys)).1 := by
  rw [run_append]
  exact List.prefix_append _ _

/-! ## Properties of the remainders a run passes through -/

/-- Every remainder that decisions reach from the stream has the property. -/
def Everywhere (D : Decoder α β) (P : List α → Prop) (xs : List α) : Prop :=
  ∀ out ys, D.Steps xs out ys → P ys

theorem Everywhere.here {P : List α → Prop} {xs : List α} (h : D.Everywhere P xs) : P xs :=
  h [] xs (.refl xs)

theorem Everywhere.of_steps {P : List α → Prop} {xs ys : List α} {out : List β}
    (h : D.Everywhere P xs) (hs : D.Steps xs out ys) : D.Everywhere P ys :=
  fun _ zs hz => h _ zs (hs.trans hz)

/-- A property that holds of a stream as soon as it holds of an extension is inherited by the
prefixes of a stream. -/
theorem Everywhere.of_append {P : List α → Prop} (hP : ∀ ys zs, P (ys ++ zs) → P ys)
    {xs zs : List α} (h : D.Everywhere P (xs ++ zs)) : D.Everywhere P xs :=
  fun out ys hs => hP ys zs (h out (ys ++ zs) (hs.append zs))

/-- What holds of every rest of a stream holds everywhere on it. -/
theorem Everywhere.of_suffixes {P : List α → Prop} {xs : List α} (h : ∀ ys, ys <:+ xs → P ys) :
    D.Everywhere P xs := by
  intro out ys hs
  induction hs with
  | refl xs => exact h _ List.suffix_rfl
  | step hd hs ih => exact ih fun ys hy => h ys (hy.trans (List.drop_suffix _ _))

/-- One decision at a time: the property holds here and, after the decision, everywhere. -/
theorem Everywhere.of_decide {P : List α → Prop} {xs : List α} {n : ℕ} {o : Option β} (hx : P xs)
    (hd : D.decide xs = some (n, o)) (h : D.Everywhere P (xs.drop n)) : D.Everywhere P xs := by
  intro out ys hs
  cases hs with
  | refl => exact hx
  | step hd' hs' =>
    obtain ⟨rfl, rfl⟩ := Prod.mk.inj (Option.some.inj (hd.symm.trans hd'))
    exact h _ _ hs'

/-- A stream behind bytes that are all dropped: the property holds everywhere on both, so it holds
everywhere on their concatenation. -/
theorem Everywhere.append {P : List α → Prop}
    (hP : ∀ ys zs, D.decide ys ≠ none → P ys → P (ys ++ zs)) {xs zs : List α}
    (h : D.Everywhere P xs) (hnil : (D.run xs).2 = []) (hz : D.Everywhere P zs) :
    D.Everywhere P (xs ++ zs) := by
  have key : ∀ {xs out ys}, D.Steps xs out ys → ys = [] → D.Everywhere P xs →
      D.Everywhere P (xs ++ zs) := by
    intro xs out ys hs
    induction hs with
    | refl xs =>
      rintro rfl -
      exact hz
    | step hd hs ih =>
      intro hy hx
      refine .of_decide (hP _ _ (by rw [hd]; simp) hx.here) (D.stable zs hd) ?_
      rw [List.drop_append_of_le_length (D.pos hd).2]
      exact ih hy (hx.of_steps (.one hd))
  exact key (steps_run xs) hnil h

theorem Everywhere.of_decide_none {P : List α → Prop} {xs : List α} (hx : P xs)
    (hd : D.decide xs = none) : D.Everywhere P xs := by
  intro out ys hs
  cases hs with
  | refl => exact hx
  | step hd' _ => simp [hd'] at hd

end Decoder

end Foundations
