import SimpleUv.Libuv.HeapOrder
import Mathlib.Data.Prod.Lex
import Mathlib.Data.UInt
import Mathlib.Data.List.Sort

/-!
# The timers of `timer.c`

A loop keeps the timers that wait in a heap, in the order of `timer_less_than`: by the time they are due,
and by the number of the start where that is the same. `uv__run_timers` takes the first one out while it is
due, starts it again when it repeats and calls its callback, which may start and stop any timer of the
loop. What a callback does is a parameter here: the calls `behave cb a loop` of the functions of this file
that the callback `cb` of the timer `a` makes.
-/

namespace SimpleUv.Libuv

/-- The fields of `uv_timer_t`. -/
structure UvTimer (Cb : Type) where
  timerCb : Option Cb
  timeout : UInt64
  repeatTime : UInt64
  startId : UInt64
  /-- The flag `UV__HANDLE_ACTIVE`. -/
  active : Bool

/-- The fields of `uv_loop_t` that the timers use, and the timers in memory. -/
structure TimerLoop (A Cb : Type) where
  heap : Heap A
  time : UInt64
  timerCounter : UInt64
  timer : A → UvTimer Cb

/-- The calls of this file that a callback can make. -/
inductive TimerOp (A Cb : Type) where
  | start (handle : A) (cb : Option Cb) (timeout rep : UInt64)
  | stop (handle : A)
  | again (handle : A)
  | setRepeat (handle : A) (rep : UInt64)
  | updateTime (now : UInt64)

namespace TimerLoop

variable {A Cb : Type} [DecidableEq A]

/-- `-EINVAL`. -/
def einval : ℤ := -22

omit [DecidableEq A] in
/-- `timer_less_than`. -/
def timerLessThan (timer : A → UvTimer Cb) (a b : A) : Bool :=
  if (timer a).timeout < (timer b).timeout then true
  else if (timer b).timeout < (timer a).timeout then false
  else if (timer a).startId < (timer b).startId then true
  else if (timer b).startId < (timer a).startId then false
  else false

/-- The loop with other values in the fields of one timer. -/
def setTimer (L : TimerLoop A Cb) (a : A) (t : UvTimer Cb) : TimerLoop A Cb :=
  { L with timer := Function.update L.timer a t }

/-- `uv_timer_stop`. -/
def uvTimerStop (L : TimerLoop A Cb) (a : A) : Option (TimerLoop A Cb) :=
  if ¬(L.timer a).active then some L
  else do
    let heap ← L.heap.heapRemove (timerLessThan L.timer) a
    return ({ L with heap := heap } : TimerLoop A Cb).setTimer a { L.timer a with active := false }

/-- The time a timer is due: `handle->loop->time + timeout`, or the last time there is. -/
def clampedTimeout (time timeout : UInt64) : UInt64 :=
  let clamped := time + timeout
  if clamped < timeout then -1 else clamped

/-- `uv_timer_start`. -/
def uvTimerStart (L : TimerLoop A Cb) (a : A) (cb : Option Cb) (timeout rep : UInt64) :
    Option (ℤ × TimerLoop A Cb) :=
  if cb.isNone then some (einval, L)
  else do
    let L ← if (L.timer a).active then L.uvTimerStop a else some L
    let L := L.setTimer a { L.timer a with
      timerCb := cb
      timeout := clampedTimeout L.time timeout
      repeatTime := rep
      startId := L.timerCounter }
    let L := { L with timerCounter := L.timerCounter + 1 }
    let heap ← L.heap.heapInsert (timerLessThan L.timer) a
    return (0, ({ L with heap := heap } : TimerLoop A Cb).setTimer a { L.timer a with active := true })

/-- `uv_timer_again`. -/
def uvTimerAgain (L : TimerLoop A Cb) (a : A) : Option (ℤ × TimerLoop A Cb) :=
  if (L.timer a).timerCb.isNone then some (einval, L)
  else if (L.timer a).repeatTime ≠ 0 then do
    let L ← L.uvTimerStop a
    let (_, L) ← L.uvTimerStart a (L.timer a).timerCb (L.timer a).repeatTime (L.timer a).repeatTime
    return (0, L)
  else some (0, L)

/-- `uv_timer_set_repeat`. -/
def uvTimerSetRepeat (L : TimerLoop A Cb) (a : A) (rep : UInt64) : TimerLoop A Cb :=
  L.setTimer a { L.timer a with repeatTime := rep }

/-- `uv__next_timeout`: how long to wait for the next timer, at most `INT_MAX`, or -1. -/
def uvNextTimeout (L : TimerLoop A Cb) : ℤ :=
  match L.heap.heapMin with
  | none => -1
  | some a =>
    if (L.timer a).timeout ≤ L.time then 0
    else
      let diff := (L.timer a).timeout - L.time
      if 2 ^ 31 - 1 < diff then 2 ^ 31 - 1 else diff.toNat

/-- One of the calls. Its error code is dropped. -/
def apply (L : TimerLoop A Cb) : TimerOp A Cb → Option (TimerLoop A Cb)
  | .start a cb timeout rep => (L.uvTimerStart a cb timeout rep).map Prod.snd
  | .stop a => L.uvTimerStop a
  | .again a => (L.uvTimerAgain a).map Prod.snd
  | .setRepeat a rep => some (L.uvTimerSetRepeat a rep)
  | .updateTime now => some { L with time := now }

variable (behave : Cb → A → TimerLoop A Cb → List (TimerOp A Cb))

/-- The body of the loop of `uv__run_timers`, `none` inside when it breaks: the timer that is called, and the
loop after the callback. -/
def runTimersRound (L : TimerLoop A Cb) : Option (Option (A × TimerLoop A Cb)) :=
  match L.heap.heapMin with
  | none => some none
  | some a =>
    if L.time < (L.timer a).timeout then some none
    else do
      let L ← L.uvTimerStop a
      let (_, L) ← L.uvTimerAgain a
      let cb ← (L.timer a).timerCb
      let L ← (behave cb a L).foldlM apply L
      return some (a, L)

/-- The calls `timer_cb(handle)` of at most so many rounds of `uv__run_timers`, each with the state in which
the timer was found due, and the loop after them. -/
def uvRunTimers : ℕ → TimerLoop A Cb → Option (List (A × TimerLoop A Cb) × TimerLoop A Cb)
  | 0, L => some ([], L)
  | n + 1, L => do
    match ← L.runTimersRound behave with
    | none => return ([], L)
    | some (a, L') =>
      let (fired, L'') ← uvRunTimers n L'
      return ((a, L) :: fired, L'')

/-! ### What the functions keep -/

omit [DecidableEq A] in
/-- The timers that wait. -/
def waiting (L : TimerLoop A Cb) : Set A := {a | (L.timer a).active = true}

/-- What timers are sorted by: the time they are due, and the number of the start. -/
def dueKey (t : UvTimer Cb) : ℕ ×ₗ ℕ := toLex (t.timeout.toNat, t.startId.toNat)

/-- The heap holds the timers that wait, each with a callback and the number of a start of its own. -/
structure Valid (L : TimerLoop A Cb) : Prop where
  heap : IsHeap (fun a => dueKey (L.timer a)) L.heap L.waiting
  started : ∀ a ∈ L.waiting, (L.timer a).startId.toNat < L.timerCounter.toNat
  distinct : ∀ a ∈ L.waiting, ∀ b ∈ L.waiting, (L.timer a).startId = (L.timer b).startId → a = b
  callback : ∀ a ∈ L.waiting, (L.timer a).timerCb ≠ none

variable {L L' : TimerLoop A Cb} {a b : A} {k : ℕ ×ₗ ℕ}

omit [DecidableEq A] in
theorem timerLessThan_iff (timer : A → UvTimer Cb) (a b : A) :
    timerLessThan timer a b = true ↔ dueKey (timer a) < dueKey (timer b) := by
  rw [dueKey, dueKey, Prod.Lex.toLex_lt_toLex, timerLessThan]
  simp only [UInt64.lt_iff_toNat_lt]
  split_ifs <;> simp <;> omega

/-- The loop after a timer is taken out of the heap. -/
def stopped (L : TimerLoop A Cb) (a : A) (heap : Heap A) : TimerLoop A Cb :=
  ({ L with heap := heap } : TimerLoop A Cb).setTimer a { L.timer a with active := false }

/-- The loop after a timer is put into the heap. -/
def started (L : TimerLoop A Cb) (a : A) (cb : Cb) (timeout rep : UInt64) (heap : Heap A) :
    TimerLoop A Cb :=
  { heap := heap, time := L.time, timerCounter := L.timerCounter + 1
    timer := Function.update L.timer a
      ⟨some cb, clampedTimeout L.time timeout, rep, L.timerCounter, true⟩ }

theorem uvTimerStop_of_active (ha : (L.timer a).active = true) :
    L.uvTimerStop a = (L.heap.heapRemove (timerLessThan L.timer) a).map (L.stopped a) := by
  rw [uvTimerStop, if_neg (by simp [ha])]
  cases L.heap.heapRemove (timerLessThan L.timer) a <;> rfl

theorem uvTimerStop_of_not_active (ha : (L.timer a).active = false) : L.uvTimerStop a = some L := by
  rw [uvTimerStop, if_pos (by simp [ha])]

theorem uvTimerStart_of_not_active (ha : (L.timer a).active = false) (cb : Cb) (timeout rep : UInt64) :
    L.uvTimerStart a (some cb) timeout rep =
      (L.heap.heapInsert (timerLessThan (Function.update L.timer a
        ⟨some cb, clampedTimeout L.time timeout, rep, L.timerCounter, false⟩)) a).map
        fun heap => (0, L.started a cb timeout rep heap) := by
  simp only [uvTimerStart, ha, Option.isNone_some, Bool.false_eq_true, if_false, setTimer,
    Function.update_self, Function.update_idem, Option.bind_eq_bind, Option.bind_some]
  cases L.heap.heapInsert _ a <;> rfl

/-- A start of a timer that waits is one of the timer after a stop. -/
theorem uvTimerStart_of_active (ha : (L.timer a).active = true) (cb : Cb) (timeout rep : UInt64) :
    L.uvTimerStart a (some cb) timeout rep =
      (L.uvTimerStop a).bind fun L' => L'.uvTimerStart a (some cb) timeout rep := by
  rw [uvTimerStop_of_active ha]
  cases hrem : L.heap.heapRemove (timerLessThan L.timer) a with
  | none => simp [uvTimerStart, ha, uvTimerStop_of_active ha, hrem]
  | some heap =>
    have ha' : ((L.stopped a heap).timer a).active = false := by simp [stopped, setTimer]
    rw [Option.map_some, Option.bind_some]
    simp only [uvTimerStart, ha, ha', uvTimerStop_of_active ha, hrem, Option.isNone_some,
      Bool.false_eq_true, if_false, if_true, Option.map_some, Option.bind_eq_bind, Option.bind_some]

namespace Valid

omit [DecidableEq A] in
/-- The timers that still wait are as they were, but for the time to repeat them after. -/
theorem mono (hL : Valid L) (hw : ∀ b ∈ L'.waiting, b ∈ L.waiting ∧
      ∃ rep, L'.timer b = { L.timer b with repeatTime := rep })
    (hheap : IsHeap (fun a => dueKey (L.timer a)) L'.heap L'.waiting)
    (hc : L'.timerCounter = L.timerCounter) : Valid L' := by
  refine ⟨hheap.congr fun b hb => ?_, ?_, ?_, ?_⟩
  · obtain ⟨-, rep, hb'⟩ := hw b hb
    rw [hb']; rfl
  · intro b hb
    obtain ⟨hmem, rep, hb'⟩ := hw b hb
    rw [hb', hc]
    exact hL.started b hmem
  · intro b hb c hc' hbc
    obtain ⟨hmem, rep, hb'⟩ := hw b hb
    obtain ⟨hmem', rep', hc''⟩ := hw c hc'
    rw [hb', hc''] at hbc
    exact hL.distinct b hmem c hmem' hbc
  · intro b hb
    obtain ⟨hmem, rep, hb'⟩ := hw b hb
    rw [hb']
    exact hL.callback b hmem

/-- `uv_timer_stop` follows no `NULL` link, and the timer does not wait any more. -/
theorem uvTimerStop (hL : Valid L) (a : A) :
    ∃ L', L.uvTimerStop a = some L' ∧ Valid L' ∧ L'.time = L.time ∧
      L'.timerCounter = L.timerCounter ∧
      L'.timer = Function.update L.timer a { L.timer a with active := false } := by
  cases ha : (L.timer a).active with
  | true =>
    obtain ⟨heap, hrem, hheap⟩ := hL.heap.heapRemove (timerLessThan_iff L.timer) (x := a) ha
    have hw : (L.stopped a heap).waiting = L.waiting \ {a} := by
      ext b
      rcases eq_or_ne b a with rfl | hba
      · simp [waiting, stopped, setTimer]
      · simp [waiting, stopped, setTimer, hba]
    refine ⟨L.stopped a heap, by rw [uvTimerStop_of_active ha, hrem]; rfl, hL.mono ?_ ?_ rfl, rfl, rfl,
      rfl⟩
    · intro b hb
      rw [hw] at hb
      exact ⟨hb.1, (L.timer b).repeatTime, Function.update_of_ne hb.2 ..⟩
    · rw [hw]
      exact hheap
  | false =>
    refine ⟨L, uvTimerStop_of_not_active ha, hL, rfl, rfl, ?_⟩
    rw [← ha, Function.update_eq_self]

variable [Finite A]

theorem uvTimerStart_of_not_active (hA : Nat.card A < 2 ^ 32) (hL : Valid L)
    (ha : (L.timer a).active = false) (cb : Cb) (timeout rep : UInt64)
    (hc : L.timerCounter.toNat + 1 < 2 ^ 64) :
    ∃ heap, L.uvTimerStart a (some cb) timeout rep = some (0, L.started a cb timeout rep heap) ∧
      Valid (L.started a cb timeout rep heap) := by
  have hnot : a ∉ L.waiting := by simp [waiting, ha]
  have hne : ∀ b ∈ L.waiting, b ≠ a := fun b hb hba => hnot (hba ▸ hb)
  have hcounter : (L.timerCounter + 1).toNat = L.timerCounter.toNat + 1 := by
    rw [UInt64.toNat_add]
    exact Nat.mod_eq_of_lt hc
  have hcard : L.heap.nelts + 1 < 2 ^ 32 := by
    rw [hL.heap.nelts, ← Set.ncard_insert_of_notMem hnot (Set.toFinite _)]
    exact (Set.ncard_le_card _).trans_lt hA
  obtain ⟨heap, hins, hheap⟩ := IsHeap.heapInsert (timerLessThan_iff (Function.update L.timer a
    ⟨some cb, clampedTimeout L.time timeout, rep, L.timerCounter, false⟩))
    (hL.heap.congr fun b hb => by rw [Function.update_of_ne (hne b hb)]) hnot hcard
  have hw : (L.started a cb timeout rep heap).waiting = insert a L.waiting := by
    ext b
    rcases eq_or_ne b a with rfl | hba
    · simp [waiting, TimerLoop.started]
    · simp [waiting, TimerLoop.started, hba]
  have hself : (L.started a cb timeout rep heap).timer a =
      ⟨some cb, clampedTimeout L.time timeout, rep, L.timerCounter, true⟩ := Function.update_self ..
  have hother : ∀ b ∈ L.waiting, (L.started a cb timeout rep heap).timer b = L.timer b := fun b hb =>
    Function.update_of_ne (hne b hb) ..
  refine ⟨heap, by rw [TimerLoop.uvTimerStart_of_not_active ha, hins]; rfl, ?_, ?_, ?_, ?_⟩
  · rw [hw]
    refine hheap.congr fun b hb => ?_
    rcases hb with rfl | hb
    · rw [hself, Function.update_self]; rfl
    · rw [hother b hb, Function.update_of_ne (hne b hb)]
  · rw [hw]
    show ∀ b ∈ insert a L.waiting, _ < (L.timerCounter + 1).toNat
    rintro b (rfl | hb)
    · rw [hself, hcounter]
      exact Nat.lt_succ_self _
    · rw [hother b hb, hcounter]
      exact (hL.started b hb).trans (Nat.lt_succ_self _)
  · rw [hw]
    have hfresh : ∀ b ∈ L.waiting, (L.timer b).startId ≠ L.timerCounter := by
      intro b hb hc'
      exact (hL.started b hb).ne (congrArg UInt64.toNat hc')
    rintro b (rfl | hb) c (rfl | hc') hbc
    · rfl
    · rw [hself, hother c hc'] at hbc
      exact absurd hbc.symm (hfresh c hc')
    · rw [hself, hother b hb] at hbc
      exact absurd hbc (hfresh b hb)
    · rw [hother b hb, hother c hc'] at hbc
      exact hL.distinct b hb c hc' hbc
  · rw [hw]
    rintro b (rfl | hb)
    · rw [hself]
      exact Option.some_ne_none cb
    · rw [hother b hb]
      exact hL.callback b hb

/-- `uv_timer_start` follows no `NULL` link, and the timer waits with the next number. -/
theorem uvTimerStart (hA : Nat.card A < 2 ^ 32) (hL : Valid L) (a : A) (cb : Cb)
    (timeout rep : UInt64) (hc : L.timerCounter.toNat + 1 < 2 ^ 64) :
    ∃ L', L.uvTimerStart a (some cb) timeout rep = some (0, L') ∧ Valid L' ∧ L'.time = L.time ∧
      L'.timerCounter = L.timerCounter + 1 ∧
      L'.timer = Function.update L.timer a
        ⟨some cb, clampedTimeout L.time timeout, rep, L.timerCounter, true⟩ := by
  cases ha : (L.timer a).active with
  | false =>
    obtain ⟨heap, hs, hv⟩ := uvTimerStart_of_not_active hA hL ha cb timeout rep hc
    exact ⟨_, hs, hv, rfl, rfl, rfl⟩
  | true =>
    obtain ⟨L₁, hstop, hL₁, htime, hcount, htimer⟩ := hL.uvTimerStop a
    have ha₁ : (L₁.timer a).active = false := by rw [htimer, Function.update_self]
    obtain ⟨heap, hs, hv⟩ := uvTimerStart_of_not_active hA hL₁ ha₁ cb timeout rep (by rwa [hcount])
    refine ⟨_, by rw [uvTimerStart_of_active ha, hstop, Option.bind_some, hs], hv, htime, ?_, ?_⟩
    · show L₁.timerCounter + 1 = _
      rw [hcount]
    · show Function.update L₁.timer a _ = _
      rw [htimer, Function.update_idem, htime, hcount]

/-- `uv_timer_again` follows no `NULL` link: it is a start when the timer repeats. -/
theorem uvTimerAgain (hA : Nat.card A < 2 ^ 32) (hL : Valid L) (a : A)
    (hc : L.timerCounter.toNat + 1 < 2 ^ 64) :
    (((L.timer a).timerCb = none ∨ (L.timer a).repeatTime = 0) ∧ ∃ r, L.uvTimerAgain a = some (r, L)) ∨
    ∃ cb L', (L.timer a).timerCb = some cb ∧ (L.timer a).repeatTime ≠ 0 ∧
      L.uvTimerAgain a = some (0, L') ∧ Valid L' ∧ L'.time = L.time ∧
      L'.timerCounter = L.timerCounter + 1 ∧
      L'.timer = Function.update L.timer a ⟨some cb, clampedTimeout L.time (L.timer a).repeatTime,
        (L.timer a).repeatTime, L.timerCounter, true⟩ := by
  rw [TimerLoop.uvTimerAgain]
  cases hcb : (L.timer a).timerCb with
  | none => exact Or.inl ⟨Or.inl rfl, einval, by simp⟩
  | some cb =>
    by_cases hrep : (L.timer a).repeatTime = 0
    · exact Or.inl ⟨Or.inr hrep, 0, by simp [hrep]⟩
    obtain ⟨L₁, hstop, hL₁, htime, hcount, htimer⟩ := hL.uvTimerStop a
    have h₁ : (L₁.timer a).timerCb = some cb ∧ (L₁.timer a).repeatTime = (L.timer a).repeatTime := by
      rw [htimer, Function.update_self]
      exact ⟨hcb, rfl⟩
    obtain ⟨L₂, hstart, hL₂, htime₂, hcount₂, htimer₂⟩ := hL₁.uvTimerStart hA a cb
      (L.timer a).repeatTime (L.timer a).repeatTime (by rwa [hcount])
    refine Or.inr ⟨cb, L₂, rfl, hrep, ?_, hL₂, htime₂.trans htime, by rw [hcount₂, hcount], ?_⟩
    · simp [hrep, hstop, h₁, hstart]
    · rw [htimer₂, htimer, Function.update_idem, htime, hcount]

end Valid

end TimerLoop

end SimpleUv.Libuv
