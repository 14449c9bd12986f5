import Mathlib.Data.List.Basic
import Mathlib.Data.Option.Basic
import Mathlib.Tactic.SplitIfs

/-!
# Waiting for the loop thread

`CTCPClient::Connect` and `CTCPServer::Start` create the loop thread and wait until it has written a
status: they poll the field every 100 ms, and write a status of their own when they give up. The client
writes it in `AfterConnect`, the server at the start of `StartThread`. `Waiting` is the field with the
thread that polls it; nothing writes `dis` to it again.

Besides, the state records what the call in progress has seen: the outcomes reported since it began,
whether it has given up, and whether the field has been written since then. What it returns is kept with
these outcomes. A result stands on its own (`CallResult.Stands`) when a success is that of the first
outcome of the call, which is the one of the attempt it began, and a failure is one of this call.
-/

namespace SimpleUv

/-- `CONNECT_TIMEOUT`, `CONNECT_FINISH`, `CONNECT_ERROR` and `CONNECT_DIS`. -/
inductive ConnectStatus
  | timeout
  | finish
  | error
  | dis
  deriving DecidableEq, Repr

/-- Where a thread is that polls the status: at the loop condition, in `ThreadSleep`, or behind the
loop. -/
inductive PollPc
  | check (waitCount : ℕ)
  | sleep (waitCount : ℕ)
  | behind
  deriving DecidableEq, Repr

/-- What `Connect` or `Start` has returned, and what had been reported to the call. -/
structure CallResult where
  value : Bool
  outcomes : List Bool
  timedOut : Bool
  deriving DecidableEq, Repr

/-- The result is due to the call itself. -/
def CallResult.Stands (r : CallResult) : Prop :=
  (r.value = true → r.outcomes.head? = some true) ∧
    (r.value = false → false ∈ r.outcomes ∨ r.timedOut = true)

/-- The status, and the thread that polls it. -/
structure Waiting where
  status : ConnectStatus
  poll : Option PollPc
  outcomes : List Bool
  timedOut : Bool
  written : Bool
  returned : Option CallResult
  deriving DecidableEq, Repr

namespace Waiting

variable (w : Waiting)

/-- The constructor. -/
def start : Waiting := ⟨.dis, none, [], false, false, none⟩

/-- A call begins. -/
def call : Waiting := { w with outcomes := [], timedOut := false, written := false, returned := none }

/-- The call returns before it waits, since a function of libuv has failed. -/
def refuse : Waiting := { w with returned := some ⟨false, [false], false⟩ }

/-- The call enters the loop. -/
def enter : Waiting := { w with poll := some (.check 0) }

/-- The loop thread reports an outcome. -/
def report (ok : Bool) : Waiting :=
  { w with
    status := if ok then .finish else .error
    outcomes := w.outcomes ++ [ok]
    written := true }

/-- The next step of the loop, and of what is behind it. -/
def pollStep : Option Waiting :=
  match w.poll with
  | none => none
  | some (.check waitCount) =>
    some { w with poll := some (if w.status = .dis then .sleep waitCount else .behind) }
  | some (.sleep waitCount) =>
    if waitCount + 1 > 100 then
      some { w with status := .timeout, poll := some .behind, timedOut := true, written := true }
    else some { w with poll := some (.check (waitCount + 1)) }
  | some .behind =>
    some { w with poll := none, returned := some ⟨w.status = .finish, w.outcomes, w.timedOut⟩ }

/-! ## The invariant -/

/-- What has been written since the call began is due to the call. -/
structure Sound (w : Waiting) : Prop where
  unwritten : w.written = false → w.outcomes = [] ∧ w.timedOut = false
  finish : w.written = true → w.status = .finish → w.outcomes.head? = some true
  failed : w.written = true → w.status ≠ .finish → false ∈ w.outcomes ∨ w.timedOut = true
  returned : ∀ r, w.returned = some r → r.Stands

variable {w} {v : Waiting}

theorem sound_start : start.Sound := ⟨fun _ => ⟨rfl, rfl⟩, nofun, nofun, nofun⟩

theorem sound_call (w : Waiting) : w.call.Sound := ⟨fun _ => ⟨rfl, rfl⟩, nofun, nofun, nofun⟩

theorem Sound.refuse (h : w.Sound) : w.refuse.Sound := by
  refine ⟨h.unwritten, h.finish, h.failed, ?_⟩
  rintro _ ⟨⟩
  exact ⟨nofun, fun _ => .inl List.mem_cons_self⟩

theorem Sound.enter (h : w.Sound) : w.enter.Sound := ⟨h.unwritten, h.finish, h.failed, h.returned⟩

/-- A success is only reported first, or after a success. -/
theorem Sound.report (h : w.Sound) {ok : Bool} (hfirst : w.outcomes.head? ≠ some false) :
    (w.report ok).Sound := by
  refine ⟨nofun, fun _ hfinish => ?_, fun _ hfailed => ?_, h.returned⟩
  · show (w.outcomes ++ [ok]).head? = some true
    cases hout : w.outcomes with
    | nil =>
      cases ok with
      | true => rfl
      | false => cases hfinish
    | cons o os =>
      rw [hout] at hfirst
      cases o with
      | true => rfl
      | false => exact absurd rfl hfirst
  · show false ∈ w.outcomes ++ [ok] ∨ _
    cases ok with
    | true => exact absurd rfl hfailed
    | false => exact .inl (List.mem_append_right _ List.mem_cons_self)

/-- The status is read for the last time: it has been written since the call began. -/
def Timely (w : Waiting) : Prop := w.poll = some .behind → w.written = true

/-- **A timely step of the loop keeps the results due to their calls.** -/
theorem Sound.pollStep (h : w.Sound) (htimely : w.Timely) (hstep : w.pollStep = some v) : v.Sound := by
  unfold Waiting.pollStep at hstep
  split at hstep
  · cases hstep
  · cases hstep
    exact ⟨h.unwritten, h.finish, h.failed, h.returned⟩
  · split_ifs at hstep
    · cases hstep
      exact ⟨nofun, fun _ => nofun, fun _ _ => .inr rfl, h.returned⟩
    · cases hstep
      exact ⟨h.unwritten, h.finish, h.failed, h.returned⟩
  · next hpoll =>
    cases hstep
    have hwritten := htimely hpoll
    refine ⟨h.unwritten, h.finish, h.failed, ?_⟩
    rintro _ ⟨⟩
    refine ⟨fun hvalue => h.finish hwritten (of_decide_eq_true hvalue), fun hvalue => ?_⟩
    exact h.failed hwritten (of_decide_eq_false hvalue)

/-- **A status from before the call** gives a result that is not due to it. -/
theorem Sound.not_stands (h : w.Sound) (htimely : ¬ w.Timely) (hstep : w.pollStep = some v) :
    ∃ r, v.returned = some r ∧ ¬ r.Stands := by
  unfold Timely at htimely
  push Not at htimely
  obtain ⟨hpoll, hwritten⟩ := htimely
  obtain ⟨hout, htimedOut⟩ := h.unwritten (Bool.eq_false_iff.2 hwritten)
  rw [Waiting.pollStep, hpoll] at hstep
  cases hstep
  refine ⟨_, rfl, fun ⟨hsuccess, hfailure⟩ => ?_⟩
  dsimp only at hsuccess hfailure
  rw [hout] at hsuccess hfailure
  rw [htimedOut] at hfailure
  cases hvalue : decide (w.status = .finish) with
  | true => cases hsuccess hvalue
  | false => rcases hfailure hvalue with h | h <;> cases h

theorem outcomes_pollStep (hstep : w.pollStep = some v) : v.outcomes = w.outcomes := by
  unfold Waiting.pollStep at hstep
  split at hstep
  · cases hstep
  · cases hstep
    rfl
  · split_ifs at hstep <;> cases hstep <;> rfl
  · cases hstep
    rfl

/-- The status is written, and never reset. -/
theorem status_ne_dis (h : w.status ≠ .dis) (hstep : w.pollStep = some v) : v.status ≠ .dis := by
  unfold Waiting.pollStep at hstep
  split at hstep
  · cases hstep
  · cases hstep
    exact h
  · split_ifs at hstep <;> cases hstep
    · nofun
    · exact h
  · cases hstep
    exact h

theorem status_report (ok : Bool) : (w.report ok).status ≠ .dis := by
  cases ok <;> nofun

/-! ## Calls that find nothing written -/

/-- What has not been written is `dis`, and a thread that is behind the loop has seen something else. -/
structure Fresh (w : Waiting) : Prop where
  unwritten : w.written = false → w.status = .dis
  behind : w.poll = some .behind → w.status ≠ .dis

theorem fresh_start : start.Fresh := ⟨fun _ => rfl, nofun⟩

theorem Fresh.call (h : w.Fresh) (hdis : w.status = .dis) : w.call.Fresh := ⟨fun _ => hdis, h.behind⟩

theorem Fresh.refuse (h : w.Fresh) : w.refuse.Fresh := ⟨h.unwritten, h.behind⟩

theorem Fresh.enter (h : w.Fresh) : w.enter.Fresh := ⟨h.unwritten, nofun⟩

theorem fresh_report (w : Waiting) (ok : Bool) : (w.report ok).Fresh :=
  ⟨nofun, fun _ => status_report ok⟩

theorem Fresh.pollStep (h : w.Fresh) (hstep : w.pollStep = some v) : v.Fresh := by
  unfold Waiting.pollStep at hstep
  split at hstep
  · cases hstep
  · cases hstep
    refine ⟨h.unwritten, fun hbehind hdis => ?_⟩
    dsimp only at hbehind hdis
    rw [if_pos hdis] at hbehind
    cases hbehind
  · split_ifs at hstep <;> cases hstep
    · exact ⟨nofun, fun _ => nofun⟩
    · exact ⟨h.unwritten, nofun⟩
  · cases hstep
    exact ⟨h.unwritten, nofun⟩

/-- **A call that has found nothing written** is timely. -/
theorem Fresh.timely (h : w.Fresh) : w.Timely := by
  intro hpoll
  by_contra hwritten
  exact h.behind hpoll (h.unwritten (Bool.eq_false_iff.2 hwritten))

end Waiting

end SimpleUv
