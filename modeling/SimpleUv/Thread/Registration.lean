import Mathlib.Logic.Function.Basic
import SimpleUv.Thread.Replication

/-!
# Threads that register at the same time

`RegistThread` holds the lock of the registry for the insertion only; its two loops go through the live
map, one entry a step, while other threads insert theirs. A thread learns of those that insert after it
from their second loop. Of those that inserted before, it learns from its own first loop or from their
second one, and it never learns of a thread that inserted behind its first loop and had announced itself
past its place when it inserted (`complete_iff`).
-/

namespace SimpleUv

open Foundations

variable {P : Type}

/-- Where a thread stands in `RegistThread`: before its call, at the next entry of the first loop, before
and behind the insertion, at the next entry of the second loop, or after its return. -/
inductive RegistLine
  | idle
  | first (it : Option UInt32)
  | insert
  | inserted
  | announce (it : Option UInt32)
  | returned
  deriving DecidableEq, Repr

/-- The thread is in the registry. -/
def RegistLine.entered : RegistLine → Bool
  | .inserted | .announce _ | .returned => true
  | _ => false

/-- The registry while threads register. -/
structure Registration (P : Type) where
  mng : CUVThreadMng P
  line : P → RegistLine

/-- A thread takes its next step in `RegistThread`, or it processes a message after that. -/
inductive RegistrationEvent (P : Type)
  | regist (p : P)
  | dispatch (p : P)

namespace Registration

/-- No thread has registered yet. -/
def start : Registration P := ⟨.start, fun _ => .idle⟩

variable [DecidableEq P] (type : P → UInt32) (s : Registration P)

/-- The thread goes on. -/
def goto (p : P) (line : RegistLine) : Registration P :=
  { s with line := Function.update s.line p line }

/-- The next step of `RegistThread(type p, p)`. -/
def registThread (p : P) : Option (Registration P) :=
  match s.line p with
  | .idle => some (s.goto p (.first s.mng.mapThread.begin))
  | .first none => some (s.goto p .insert)
  | .first (some k) => do
    let q ← s.mng.mapThread[k]?
    let s := { s with mng := s.mng.pushBackMsg p (.regist k q) }
    some (s.goto p (.first (s.mng.mapThread.next k)))
  | .insert =>
    let s := { s with mng := { s.mng with mapThread := s.mng.mapThread.insert (type p) p } }
    some (s.goto p .inserted)
  | .inserted => some (s.goto p (.announce s.mng.mapThread.begin))
  | .announce none => some (s.goto p .returned)
  | .announce (some k) => do
    let q ← s.mng.mapThread[k]?
    let s := { s with mng := s.mng.pushBackMsg q (.regist (type p) p) }
    some (s.goto p (.announce (s.mng.mapThread.next k)))
  | .returned => none

/-- One step of a thread. -/
def step : RegistrationEvent P → Option (Registration P)
  | .regist p => s.registThread type p
  | .dispatch p => if s.line p = .returned then some { s with mng := s.mng.dispatch p } else none

/-- All calls have returned, and all messages are processed. -/
def Finished (s : Registration P) : Prop :=
  ∀ p, s.line p = .idle ∨ s.line p = .returned ∧ (s.mng.threads p).queue = []

/-- Every registered thread has the registry as its copy, and sends where the registry sends. -/
def Complete (s : Registration P) : Prop :=
  ∀ p, s.line p = .returned → (s.mng.threads p).mapThread = s.mng.mapThread ∧
    ∀ nDstAddr, (s.mng.threads p).sendUvMessage nDstAddr = s.mng.sendUvMessage nDstAddr

variable {type}

/-- A thread will know another one when it has processed its messages. -/
def Knows (type : P → UInt32) (s : Registration P) (q p : P) : Prop :=
  (s.mng.threads q).settled[type p]? = some p

/-- The second loop of a thread has still to reach another one. -/
def Coming (type : P → UInt32) (s : Registration P) (p q : P) : Prop :=
  s.line p = .inserted ∨ ∃ k, s.line p = .announce (some k) ∧ k ≤ type q

/-- Before a thread inserts itself, it knows every registered thread, or is still ahead of the second loop
of that thread. -/
def Announced (type : P → UInt32) (s : Registration P) : RegistrationEvent P → Prop
  | .regist q => s.line q = .insert →
    ∀ (k : UInt32) p, s.mng.mapThread[k]? = some p → s.Knows type q p ∨ s.Coming type p q
  | .dispatch _ => True

/-! ## Steps -/

variable {s} {t : Registration P} {p q x : P} {k : UInt32} {line : RegistLine}
  {e : RegistrationEvent P}

/-- What a step does. -/
inductive Step (type : P → UInt32) (s : Registration P) :
    RegistrationEvent P → Registration P → Prop
  | begin {p : P} (h : s.line p = .idle) :
      Step type s (.regist p) (s.goto p (.first s.mng.mapThread.begin))
  | ready {p : P} (h : s.line p = .first none) : Step type s (.regist p) (s.goto p .insert)
  | introduce {p q : P} {k : UInt32} (h : s.line p = .first (some k))
      (hk : s.mng.mapThread[k]? = some q) :
      Step type s (.regist p) (goto { s with mng := s.mng.pushBackMsg p (.regist k q) } p
        (.first (s.mng.mapThread.next k)))
  | enter {p : P} (h : s.line p = .insert) :
      Step type s (.regist p) (goto { s with
        mng := { s.mng with mapThread := s.mng.mapThread.insert (type p) p } } p .inserted)
  | turn {p : P} (h : s.line p = .inserted) :
      Step type s (.regist p) (s.goto p (.announce s.mng.mapThread.begin))
  | announce {p q : P} {k : UInt32} (h : s.line p = .announce (some k))
      (hk : s.mng.mapThread[k]? = some q) :
      Step type s (.regist p) (goto { s with mng := s.mng.pushBackMsg q (.regist (type p) p) } p
        (.announce (s.mng.mapThread.next k)))
  | finish {p : P} (h : s.line p = .announce none) : Step type s (.regist p) (s.goto p .returned)
  | dispatch {p : P} (h : s.line p = .returned) :
      Step type s (.dispatch p) { s with mng := s.mng.dispatch p }

theorem step_cases (hstep : s.step type e = some t) : Step type s e t := by
  cases e with
  | regist p =>
    unfold step registThread at hstep
    cases hline : s.line p with
    | idle =>
      simp only [hline, Option.some.injEq] at hstep
      exact hstep ▸ .begin hline
    | first it =>
      cases it with
      | none =>
        simp only [hline, Option.some.injEq] at hstep
        exact hstep ▸ .ready hline
      | some k =>
        simp only [hline, Option.bind_eq_bind, Option.bind_eq_some_iff, Option.some.injEq] at hstep
        obtain ⟨q, hk, rfl⟩ := hstep
        exact .introduce hline hk
    | insert =>
      simp only [hline, Option.some.injEq] at hstep
      exact hstep ▸ .enter hline
    | inserted =>
      simp only [hline, Option.some.injEq] at hstep
      exact hstep ▸ .turn hline
    | announce it =>
      cases it with
      | none =>
        simp only [hline, Option.some.injEq] at hstep
        exact hstep ▸ .finish hline
      | some k =>
        simp only [hline, Option.bind_eq_bind, Option.bind_eq_some_iff, Option.some.injEq] at hstep
        obtain ⟨q, hk, rfl⟩ := hstep
        exact .announce hline hk
    | returned =>
      simp only [hline] at hstep
      cases hstep
  | dispatch p =>
    obtain ⟨hline, hstep⟩ := Option.ite_none_right_eq_some.1 hstep
    cases hstep
    exact .dispatch hline

theorem goto_self : (s.goto p line).line p = line := Function.update_self ..

theorem goto_of_ne (h : x ≠ p) : (s.goto p line).line x = s.line x := Function.update_of_ne h ..

/-- A step that neither enters nor leaves the registry. -/
theorem entered_goto (h : line.entered = (s.line p).entered) (x : P) :
    ((s.goto p line).line x).entered = (s.line x).entered := by
  by_cases hx : x = p
  · rw [hx, goto_self, h]
  · rw [goto_of_ne hx]

/-! ## Undisturbed calls -/

theorem goto_eq_self (h : s.line p = line) : s.goto p line = s := by
  rw [goto, ← h, Function.update_eq_self]

/-- A thread gets from one state to another in its call of `RegistThread`, with nobody in between. -/
def Undisturbed (type : P → UInt32) (p : P) (s t : Registration P) : Prop :=
  ∃ n, exec (step type) s (List.replicate n (.regist p)) = some t

namespace Undisturbed

theorem refl (type : P → UInt32) (p : P) (s : Registration P) : Undisturbed type p s s := ⟨0, rfl⟩

/-- The next step, and the steps after it. -/
theorem cons {u : Registration P} (hstep : s.registThread type p = some t)
    (h : Undisturbed type p t u) : Undisturbed type p s u := by
  obtain ⟨n, hn⟩ := h
  exact ⟨n + 1, by rw [List.replicate_succ, exec_cons (by exact hstep), hn]⟩

/-- **A loop** appends its messages. -/
theorem loop (place : Option UInt32 → RegistLine) (msg : UInt32 × P → P × ThreadMsg P)
    {u : Registration P}
    (hbody : ∀ (s : Registration P) (k : UInt32) q, s.line p = place (some k) →
      s.mng.mapThread[k]? = some q → s.registThread type p =
        some (goto { s with mng := s.mng.pushBackMsg (msg (k, q)).1 (msg (k, q)).2 } p
          (place (s.mng.mapThread.next k))))
    {l : List (UInt32 × P)} (hl : l <:+ s.mng.mapThread.toList)
    (hline : s.line p = place (l.head?.map Prod.fst))
    (h : Undisturbed type p
      (goto { s with mng := s.mng.pushBackAll (l.map msg) } p (place none)) u) :
    Undisturbed type p s u := by
  induction l generalizing s with
  | nil => rwa [← goto_eq_self hline]
  | cons it l ih =>
    have hit : s.mng.mapThread[it.1]? = some it.2 :=
      ThreadMap.mem_toList_iff.1 (hl.subset List.mem_cons_self)
    have hstep := hbody s it.1 it.2 hline hit
    obtain ⟨before, hbefore⟩ := hl
    rw [ThreadMap.next_of_append hbefore.symm] at hstep
    refine cons hstep (ih ⟨before ++ [it], ?_⟩ goto_self ?_)
    · rw [List.append_assoc]
      exact hbefore
    · have hgoto : ∀ s' : Registration P, ∀ line', (s'.goto p line').goto p (place none) =
          s'.goto p (place none) := fun s' line' => by simp only [goto, Function.update_idem]
      exact hgoto { s with mng := _ } _ ▸ h

end Undisturbed

/-- **A call that nobody disturbs** is `RegistThread` as a whole. -/
theorem undisturbed_registThread (hidle : s.line p = .idle) :
    Undisturbed type p s (goto { s with mng := s.mng.registThread (type p) p } p .returned) := by
  refine .cons (by rw [registThread, hidle]) ?_
  refine .loop .first (fun it => (p, .regist it.1 it.2)) (fun s k q hline hk => ?_) List.suffix_rfl
    goto_self ?_
  · simp only [registThread, hline, hk, Option.bind_eq_bind, Option.bind_some]
    rfl
  refine .cons (by rw [registThread, goto_self]) ?_
  refine .cons (by rw [registThread, goto_self]) ?_
  refine .cons (by rw [registThread, goto_self]) ?_
  refine .loop .announce (fun it => (it.2, .regist (type p) p)) (fun s k q hline hk => ?_)
    List.suffix_rfl goto_self ?_
  · simp only [registThread, hline, hk, Option.bind_eq_bind, Option.bind_some]
    rfl
  refine .cons (by rw [registThread, goto_self]) ?_
  convert Undisturbed.refl type p _ using 1
  simp only [goto, Function.update_idem]
  rfl

/-! ## What is known -/

/-- The registry holds the threads that have entered it, and nobody knows anything else. -/
structure Sound (type : P → UInt32) (s : Registration P) : Prop where
  registered : ∀ (k : UInt32) q, s.mng.mapThread[k]? = some q ↔
    type q = k ∧ (s.line q).entered = true
  known : ∀ p (k : UInt32) q, (s.mng.threads p).settled[k]? = some q →
    type q = k ∧ (s.line q).entered = true

omit [DecidableEq P] in
theorem sound_start (type : P → UInt32) : (start : Registration P).Sound type where
  registered k q := by
    show (∅ : ThreadMap P)[k]? = some q ↔ _
    rw [Std.ExtTreeMap.getElem?_empty]
    exact ⟨nofun, nofun⟩
  known p k q hk := by
    replace hk : (∅ : ThreadMap P)[k]? = some q := hk
    rw [Std.ExtTreeMap.getElem?_empty] at hk
    cases hk

/-- A thread gets a message about a registered thread, and another one goes on. -/
theorem Sound.send (h : s.Sound type) (hx : type x = k ∧ (s.line x).entered = true)
    (hline : line.entered = (s.line p).entered) :
    Sound type (goto { s with mng := s.mng.pushBackMsg q (.regist k x) } p line) where
  registered j y := by
    rw [entered_goto (by exact hline)]
    exact h.registered j y
  known y j z hj := by
    rw [entered_goto (by exact hline)]
    replace hj : ((s.mng.pushBackMsg q (.regist k x)).threads y).settled[j]? = some z := hj
    rw [CUVThreadMng.settled_pushBackMsg] at hj
    split_ifs at hj with hy
    · rw [getElem?_regist] at hj
      cases hold : (s.mng.threads y).settled[j]? with
      | some w =>
        rw [hold, Option.some_or] at hj
        exact h.known y j z (hold.trans hj)
      | none =>
        rw [hold, Option.none_or] at hj
        split_ifs at hj with hkj
        cases hj
        exact hkj ▸ hx
    · exact h.known y j z hj

theorem Sound.move (h : s.Sound type) (hline : line.entered = (s.line p).entered) :
    (s.goto p line).Sound type where
  registered j y := by
    rw [entered_goto hline]
    exact h.registered j y
  known y j z hj := by
    rw [entered_goto hline]
    exact h.known y j z hj

/-- **Every step keeps the registry sound.** -/
theorem Sound.step (htype : Function.Injective type) (h : s.Sound type)
    (hstep : s.step type e = some t) : t.Sound type := by
  cases step_cases hstep with
  | begin hline | ready hline | turn hline | finish hline => exact h.move (by rw [hline]; rfl)
  | introduce hline hk => exact h.send ((h.registered _ _).1 hk) (by rw [hline]; rfl)
  | announce hline hk => exact h.send ⟨rfl, by rw [hline]; rfl⟩ (by rw [hline]; rfl)
  | @enter p hline =>
    have hentered : ∀ y, ((Registration.goto { s with mng := { s.mng with
        mapThread := s.mng.mapThread.insert (type p) p } } p .inserted).line y).entered = true ↔
          y = p ∨ (s.line y).entered = true := by
      intro y
      by_cases hy : y = p
      · subst hy
        rw [goto_self]
        exact iff_of_true rfl (.inl rfl)
      · rw [goto_of_ne hy]
        exact (or_iff_right hy).symm
    refine ⟨fun j y => ?_, fun y j z hj => ?_⟩
    · rw [hentered]
      show (s.mng.mapThread.insert (type p) p)[j]? = some y ↔ _
      rw [ThreadMap.getElem?_insert]
      by_cases hj : type p = j
      · rw [if_pos hj, Option.some.injEq, ← hj]
        constructor
        · rintro rfl
          exact ⟨rfl, .inl rfl⟩
        · exact fun hy => htype hy.1.symm
      · rw [if_neg hj, h.registered]
        constructor
        · exact fun hy => ⟨hy.1, .inr hy.2⟩
        · rintro ⟨hy, rfl | hentered⟩
          · exact absurd hy hj
          · exact ⟨hy, hentered⟩
    · obtain ⟨hz, hentered'⟩ := h.known y j z hj
      exact ⟨hz, (hentered z).2 (.inr hentered')⟩
  | dispatch hline =>
    refine ⟨h.registered, fun y j z hj => h.known y j z ?_⟩
    rwa [← CUVThreadMng.settled_dispatch]

/-! ## Who meets whom -/

variable {y z : P}

/-- Every registered thread knows every other one, or is about to. -/
def Met (type : P → UInt32) (s : Registration P) : Prop :=
  ∀ x y, (s.line x).entered = true → (s.line y).entered = true →
    s.Knows type y x ∨ s.Coming type x y

theorem coming_goto_of_ne (h : x ≠ p) :
    (s.goto p line).Coming type x y ↔ s.Coming type x y := by
  simp only [Coming, goto_of_ne h]

omit [DecidableEq P] in
/-- A thread that is not at its second loop is not on its way to anybody. -/
theorem not_coming (hinserted : s.line x ≠ .inserted) (hannounce : ∀ k, s.line x ≠ .announce (some k)) :
    ¬ s.Coming type x y := by
  rintro (hline | ⟨k, hline, -⟩)
  · exact hinserted hline
  · exact hannounce k hline

/-- What is known stays known. -/
theorem Knows.send (h : s.Knows type y z) :
    Knows type (goto { s with mng := s.mng.pushBackMsg q (.regist k x) } p line) y z := by
  show ((s.mng.pushBackMsg q (.regist k x)).threads y).settled[type z]? = some z
  rw [CUVThreadMng.settled_pushBackMsg]
  split_ifs
  · rw [getElem?_regist, h, Option.some_or]
  · exact h

/-- A thread that is told of another one knows it. -/
theorem Sound.knows_of_send (htype : Function.Injective type) (h : s.Sound type) :
    Knows type (Registration.goto { s with mng := s.mng.pushBackMsg y (.regist (type x) x) } p line)
      y x := by
  show ((s.mng.pushBackMsg y (.regist (type x) x)).threads y).settled[type x]? = some x
  rw [CUVThreadMng.settled_pushBackMsg, if_pos rfl, getElem?_regist, if_pos rfl]
  cases hold : (s.mng.threads y).settled[type x]? with
  | none => rfl
  | some w => rw [htype (h.known y _ w hold).1, Option.some_or]

omit [DecidableEq P] in
theorem Sound.mapThread (h : s.Sound type) (hy : (s.line y).entered = true) :
    s.mng.mapThread[type y]? = some y :=
  (h.registered _ _).2 ⟨rfl, hy⟩

omit [DecidableEq P] in
/-- The threads that are in the registry are not the one that is on its way into it. -/
theorem ne_of_entered (hx : (s.line x).entered = true) (hp : (s.line p).entered = false) : x ≠ p := by
  rintro rfl
  exact Bool.noConfusion (hx.symm.trans hp)

theorem knows_dispatch :
    Knows type { s with mng := s.mng.dispatch p } y x ↔ s.Knows type y x := by
  unfold Knows
  rw [CUVThreadMng.settled_dispatch]

/-- **A step keeps the threads acquainted**, unless a thread inserts itself unannounced. -/
theorem Met.step (htype : Function.Injective type) (hs : s.Sound type) (h : s.Met type)
    (hok : s.Announced type e) (hstep : s.step type e = some t) : t.Met type := by
  intro x y hx hy
  cases step_cases hstep with
  | begin hline | ready hline =>
    rw [entered_goto (by rw [hline]; rfl)] at hx hy
    rw [coming_goto_of_ne (ne_of_entered hx (by rw [hline]; rfl))]
    exact h x y hx hy
  | introduce hline hk =>
    rw [entered_goto (by exact (by rw [hline]; rfl))] at hx hy
    rw [coming_goto_of_ne (ne_of_entered hx (by rw [hline]; rfl))]
    exact (h x y hx hy).imp Knows.send id
  | @enter p hline =>
    by_cases hxp : x = p
    · exact .inr (.inl (by rw [hxp, goto_self]))
    · rw [goto_of_ne hxp] at hx
      rw [coming_goto_of_ne hxp]
      by_cases hyp : y = p
      · subst hyp
        exact hok hline (type x) x (hs.mapThread hx)
      · rw [goto_of_ne hyp] at hy
        exact h x y hx hy
  | @turn p hline =>
    rw [entered_goto (by rw [hline]; rfl)] at hx hy
    by_cases hxp : x = p
    · obtain ⟨k, hk, hle⟩ := ThreadMap.begin_le (hs.mapThread hy)
      exact .inr (.inr ⟨k, by rw [hxp, goto_self, hk], hle⟩)
    · rw [coming_goto_of_ne hxp]
      exact h x y hx hy
  | @announce p q k hline hk =>
    rw [entered_goto (by exact (by rw [hline]; rfl))] at hx hy
    by_cases hxp : x = p
    · subst hxp
      rcases h x y hx hy with hknows | hinserted | ⟨k', hk', hle⟩
      · exact .inl hknows.send
      · rw [hline] at hinserted
        cases hinserted
      · rw [hline] at hk'
        cases hk'
        by_cases hky : k = type y
        · rw [hky, hs.mapThread hy] at hk
          cases hk
          exact .inl (hs.knows_of_send htype)
        · obtain ⟨k', hk', hle'⟩ := ThreadMap.next_le (hs.mapThread hy)
            (UInt32.lt_of_le_of_ne hle hky)
          exact .inr (.inr ⟨k', by rw [goto_self, hk'], hle'⟩)
    · rw [coming_goto_of_ne hxp]
      exact (h x y hx hy).imp Knows.send id
  | @finish p hline =>
    rw [entered_goto (by rw [hline]; rfl)] at hx hy
    by_cases hxp : x = p
    · subst hxp
      refine .inl ((h x y hx hy).resolve_right (not_coming ?_ fun k => ?_))
      · rw [hline]
        nofun
      · rw [hline]
        nofun
    · rw [coming_goto_of_ne hxp]
      exact h x y hx hy
  | dispatch hline =>
    rw [knows_dispatch]
    exact h x y hx hy

/-- **A thread that inserts itself unannounced** misses somebody. -/
theorem Sound.not_met_of_unannounced (hs : s.Sound type) (hok : ¬ s.Announced type e)
    (hstep : s.step type e = some t) : ¬ t.Met type := by
  cases e with
  | dispatch p => exact absurd trivial hok
  | regist p =>
    simp only [Announced] at hok
    push Not at hok
    obtain ⟨hline, k, x, hk, hknows, hcoming⟩ := hok
    obtain ⟨rfl, hx⟩ := (hs.registered k x).1 hk
    have hxp : x ≠ p := ne_of_entered hx (by rw [hline]; rfl)
    intro hmet
    simp only [Registration.step, registThread, hline, Option.some.injEq] at hstep
    subst hstep
    have hx' := hmet x p (by rwa [goto_of_ne hxp]) (by rw [goto_self]; rfl)
    rw [coming_goto_of_ne hxp] at hx'
    exact hx'.elim hknows hcoming

/-- A message about another thread tells nothing about this one. -/
theorem not_knows_send (h : ¬ s.Knows type y z) (hne : q = y → k ≠ type z) :
    ¬ Knows type (goto { s with mng := s.mng.pushBackMsg q (.regist k x) } p line) y z := by
  show ((s.mng.pushBackMsg q (.regist k x)).threads y).settled[type z]? ≠ some z
  rw [CUVThreadMng.settled_pushBackMsg]
  split_ifs with hq
  · rw [getElem?_regist, if_neg (hne hq), Option.or_none]
    exact h
  · exact h

/-- **Who misses somebody once does so for good.** -/
theorem Sound.not_met (htype : Function.Injective type) (hs : s.Sound type) (h : ¬ s.Met type)
    (hstep : s.step type e = some t) : ¬ t.Met type := by
  simp only [Met, not_forall, not_or] at h
  obtain ⟨x, y, hx, hy, hknows, hcoming⟩ := h
  intro hmet
  have hmeet := hmet x y
  cases step_cases hstep with
  | begin hline | ready hline =>
    rw [entered_goto (by rw [hline]; rfl), entered_goto (by rw [hline]; rfl),
      coming_goto_of_ne (ne_of_entered hx (by rw [hline]; rfl))] at hmeet
    exact (hmeet hx hy).elim hknows hcoming
  | @introduce p q k hline hk =>
    rw [entered_goto (by exact (by rw [hline]; rfl)), entered_goto (by exact (by rw [hline]; rfl)),
      coming_goto_of_ne (ne_of_entered hx (by rw [hline]; rfl))] at hmeet
    have hyp : y ≠ p := ne_of_entered hy (by rw [hline]; rfl)
    exact (hmeet hx hy).elim (not_knows_send hknows fun hpy => absurd hpy.symm hyp) hcoming
  | enter hline =>
    have hxp := ne_of_entered hx (by rw [hline]; rfl)
    have hyp := ne_of_entered hy (by rw [hline]; rfl)
    rw [goto_of_ne hxp, goto_of_ne hyp, coming_goto_of_ne hxp] at hmeet
    exact (hmeet hx hy).elim hknows hcoming
  | @turn p hline =>
    have hxp : x ≠ p := fun hxp => hcoming (.inl (by rw [hxp, hline]))
    rw [entered_goto (by rw [hline]; rfl), entered_goto (by rw [hline]; rfl),
      coming_goto_of_ne hxp] at hmeet
    exact (hmeet hx hy).elim hknows hcoming
  | @announce p q k hline hk =>
    rw [entered_goto (by exact (by rw [hline]; rfl)), entered_goto (by exact (by rw [hline]; rfl))]
      at hmeet
    by_cases hxp : x = p
    · subst hxp
      have hbehind : ¬ k ≤ type y := fun hle => hcoming (.inr ⟨k, hline, hle⟩)
      obtain ⟨hqk, -⟩ := (hs.registered k q).1 hk
      rcases hmeet hx hy with hnew | hinserted | ⟨k', hk', hle⟩
      · refine not_knows_send hknows (fun hqy => ?_) hnew
        rw [← hqy, hqk] at hbehind
        exact absurd (UInt32.le_refl k) hbehind
      · rw [goto_self] at hinserted
        cases hinserted
      · rw [goto_self, RegistLine.announce.injEq] at hk'
        exact hbehind (UInt32.le_of_lt (UInt32.lt_of_lt_of_le (ThreadMap.lt_of_next hk') hle))
    · rw [coming_goto_of_ne hxp] at hmeet
      refine (hmeet hx hy).elim (not_knows_send hknows fun _ heq => hxp ?_) hcoming
      exact (htype heq).symm
  | @finish p hline =>
    rw [entered_goto (by rw [hline]; rfl), entered_goto (by rw [hline]; rfl)] at hmeet
    by_cases hxp : x = p
    · subst hxp
      refine (hmeet hx hy).elim hknows (not_coming ?_ fun k => ?_)
      · rw [goto_self]
        nofun
      · rw [goto_self]
        nofun
    · rw [coming_goto_of_ne hxp] at hmeet
      exact (hmeet hx hy).elim hknows hcoming
  | dispatch hline =>
    rw [knows_dispatch] at hmeet
    exact (hmeet hx hy).elim hknows hcoming

/-! ## Runs -/

omit [DecidableEq P] in
theorem met_start (type : P → UInt32) : (start : Registration P).Met type :=
  fun _ _ hx => Bool.noConfusion hx

omit [DecidableEq P] in
/-- At the end the copies are complete when everybody has met. -/
theorem Sound.complete_iff_met (hs : s.Sound type) (hfin : s.Finished) : s.Complete ↔ s.Met type := by
  have hdone : ∀ x, (s.line x).entered = true →
      s.line x = .returned ∧ (s.mng.threads x).settled = (s.mng.threads x).mapThread := by
    intro x hx
    rcases hfin x with hidle | ⟨hline, hqueue⟩
    · rw [hidle] at hx
      cases hx
    · exact ⟨hline, by rw [CUVThread.settled, hqueue, List.foldl_nil]⟩
  constructor
  · intro hcomplete x y hx hy
    obtain ⟨hline, hsettled⟩ := hdone y hy
    refine .inl ?_
    rw [Knows, hsettled, (hcomplete y hline).1]
    exact hs.mapThread hx
  · intro hmet y hline
    have hy : (s.line y).entered = true := by rw [hline]; rfl
    have hcopy : (s.mng.threads y).mapThread = s.mng.mapThread := by
      rw [← (hdone y hy).2]
      refine ThreadMap.ext fun k => Option.ext fun x => ?_
      constructor
      · exact fun hk => (hs.registered k x).2 (hs.known y k x hk)
      · intro hk
        obtain ⟨rfl, hx⟩ := (hs.registered k x).1 hk
        refine (hmet x y hx hy).resolve_right (not_coming ?_ fun j => ?_)
        · intro hinsert
          cases (hdone x hx).1.symm.trans hinsert
        · intro hannounce
          cases (hdone x hx).1.symm.trans hannounce
    exact ⟨hcopy, fun nDstAddr => by
      rw [CUVThread.sendUvMessage, CUVThreadMng.sendUvMessage, hcopy]⟩

/-- **The copies are complete** at the end of a run in which all calls return exactly when every thread
that inserted itself was announced: it knew each thread that was registered by then, or was still ahead of
that thread's second loop. -/
theorem complete_iff (htype : Function.Injective type) {es : List (RegistrationEvent P)}
    (hexec : exec (step type) start es = some s) (hfin : s.Finished) :
    s.Complete ↔ Along (step type) (Announced type) start es := by
  have hsound : s.Sound type :=
    (always_of_step (fun _ _ _ h => Sound.step htype h) (sound_start type) es).last hexec
  rw [hsound.complete_iff_met hfin]
  have hmet : Always (step type) (Met type) start es ↔ Along (step type) (Announced type) start es :=
    always_iff_along (I := fun s => s.Sound type ∧ s.Met type) (A := fun _ => True)
      (fun s e t h _ hok hstep => ⟨h.1.step htype hstep, h.2.step htype h.1 hok hstep⟩)
      (fun s e t h _ hok hstep => h.1.not_met_of_unannounced hok hstep) (fun s h => h.2)
      ⟨sound_start type, met_start type⟩ fun _ _ => trivial
  rw [← hmet]
  exact ⟨always_of_last (fun _ _ _ h => Sound.step htype h)
    (fun _ _ _ h => Sound.not_met htype h) (sound_start type) hexec, fun h => h.last hexec⟩

/-- Two threads. -/
def twoTypes (p : Bool) : UInt32 := if p then 2 else 1

theorem twoTypes_injective : Function.Injective twoTypes := by
  intro p q h
  cases p <;> cases q <;> first | rfl | exact absurd h (by decide)

/-- The second thread registers after the first one. -/
def oneByOne : List (RegistrationEvent Bool) :=
  List.replicate 6 (.regist false) ++ List.replicate 8 (.regist true) ++
    [.dispatch false, .dispatch false, .dispatch true, .dispatch true]

/-- It is announced. -/
theorem oneByOne_announced : Along (step twoTypes) (Announced twoTypes) start oneByOne := by
  obtain ⟨s, hexec, hfin, hcomplete⟩ : ∃ s, exec (step twoTypes) start oneByOne = some s ∧
      s.Finished ∧ s.Complete := by
    refine ⟨_, rfl, fun p => ?_, fun p _ => ?_⟩
    · cases p <;> exact .inr ⟨rfl, rfl⟩
    · cases p <;> exact ⟨rfl, fun _ => rfl⟩
  exact (complete_iff twoTypes_injective hexec hfin).1 hcomplete

/-- The second thread goes through the empty registry first, and inserts itself when the first one has
returned. -/
def overtaken : List (RegistrationEvent Bool) :=
  List.replicate 2 (.regist true) ++ List.replicate 6 (.regist false) ++
    List.replicate 5 (.regist true) ++ [.dispatch false, .dispatch false, .dispatch true]

/-- It never learns of the first one. -/
theorem overtaken_not_complete : ∃ s, exec (step twoTypes) start overtaken = some s ∧ s.Finished ∧
    ¬ s.Complete := by
  refine ⟨_, rfl, fun p => ?_, fun h => ?_⟩
  · cases p <;> exact .inr ⟨rfl, rfl⟩
  · have hcopy := congrArg (fun m : ThreadMap Bool => m[(1 : UInt32)]?) (h true rfl).1
    exact absurd hcopy (by decide)

end Registration

end SimpleUv
