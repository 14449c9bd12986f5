import SimpleUv.Foundations.Transition
import SimpleUv.TcpHandle.Waiting
import SimpleUv.TcpServer.Server

/-!
# Cycles of the server

A cycle of the server is one of the client with `Start` in the place of `Connect`. The thread that `Start`
creates writes the status as soon as it runs, and resets two flags when its loop has ended. The loop
ends when the listening handle and the handles of all contexts are closed. `Start6` differs in
`uv_ip6_addr`.
-/

namespace SimpleUv

open Foundations

/-- The results of the calls in `Start`: those of `CTCPHandle::init`, of `CTCPServer::init`, of `bind`, of
`listen`, and its own. -/
structure StartResults where
  asyncInit : ℤ
  tcpInit : ℤ
  tcpNodelay : ℤ
  ipAddr : ℤ
  tcpBind : ℤ
  listen : ℤ
  threadCreate : ℤ

/-- All calls succeed. -/
def StartResults.ok : StartResults := ⟨0, 0, 0, 0, 0, 0, 0⟩

/-- The thread that `Start` creates: there is none, it has not run yet, or it runs the loop. -/
inductive StartThreadPc
  | none
  | created
  | running
  deriving DecidableEq, Repr

/-- The server over its cycles. -/
structure StartCycles (B : Build) where
  server : CTCPServer B
  waiting : Waiting
  thread : StartThreadPc
  ended : Bool

namespace StartCycles

variable {B : Build} (s : StartCycles B)

/-- The constructor. -/
def start (B : Build) : StartCycles B where
  server := { CTCPServer.start B with isClosed := true, listening := false }
  waiting := .start
  thread := .none
  ended := false

/-- `CTCPHandle::init`, whose result is not looked at. -/
def initHandle (r : StartResults) : StartCycles B :=
  if s.server.isClosed then
    if r.asyncInit ≠ 0 ∨ r.tcpInit ≠ 0 then s
    else { s with server := { s.server with isClosed := false } }
  else s

/-- The call returns without waiting. -/
def refuse : StartCycles B := { s with waiting := s.waiting.refuse }

/-- `Start` behind its call of `closeinl`, until it waits. -/
def listen (r : StartResults) : StartCycles B :=
  let s := s.initHandle r
  if r.tcpNodelay ≠ 0 ∨ r.ipAddr ≠ 0 ∨ r.tcpBind ≠ 0 ∨ r.listen ≠ 0 then s.refuse
  else
    let s := { s with server := { s.server with listening := true } }
    if r.threadCreate ≠ 0 then s.refuse
    else { s with waiting := s.waiting.enter, thread := .created }

/-- `Start`, until it waits. It stops in `closeinl` when that waits for a mutex that is never unlocked. -/
def callStart (r : StartResults) : Option (StartCycles B) :=
  s.server.closeinl.map fun server =>
    { s with server := server, waiting := s.waiting.call, ended := false }.listen r

/-- The loop has something to wait for. -/
def Alive : Prop :=
  s.server.listening = true ∨
    ∃ a < s.server.ctxEnd, (s.server.ctxs a).any (fun ctx => ctx.tcphandle ≠ .closed) = true

instance : Decidable s.Alive := by
  unfold Alive
  infer_instance

/-- A thread calls `Start`, or goes on in it; the thread it has created begins; an event of the server;
the loop ends. -/
inductive Event (B : Build)
  | start (r : StartResults)
  | poll
  | startThread
  | server (e : CTCPServer.Event B)
  | threadEnd

/-- What an event does. At its end `StartThread` resets the flags, but not the status. -/
def step : Event B → Option (StartCycles B)
  | .start r => if s.waiting.poll = none ∧ s.thread = .none then s.callStart r else none
  | .poll => s.waiting.pollStep.map fun waiting => { s with waiting := waiting }
  | .startThread =>
    if s.thread = .created then
      some { s with waiting := s.waiting.report true, thread := .running }
    else none
  | .server e =>
    if (e matches .userClose) ∨ s.thread = .running then
      (s.server.step e).map fun server => { s with server := server }
    else none
  | .threadEnd =>
    if s.thread = .running ∧ ¬ s.Alive then
      some { s with
        server := { s.server with isClosed := true, isUserAskForClosed := false }
        thread := .none
        ended := s.server.isUserAskForClosed }
    else none

/-- The ways an event can go. -/
inductive Step (s : StartCycles B) : Event B → StartCycles B → Prop
  | start {r : StartResults} {t : StartCycles B} (hidle : s.thread = .none)
      (hcall : s.callStart r = some t) : Step s (.start r) t
  | poll {w : Waiting} (hw : s.waiting.pollStep = some w) : Step s .poll { s with waiting := w }
  | startThread (hcreated : s.thread = .created) :
      Step s .startThread { s with waiting := s.waiting.report true, thread := .running }
  | server {e : CTCPServer.Event B} {server : CTCPServer B} (hserver : s.server.step e = some server) :
      Step s (.server e) { s with server := server }
  | threadEnd (hrunning : s.thread = .running) (halive : ¬ s.Alive) :
      Step s .threadEnd { s with
        server := { s.server with isClosed := true, isUserAskForClosed := false }
        thread := .none
        ended := s.server.isUserAskForClosed }

theorem step_cases {s t : StartCycles B} {e : Event B} (h : s.step e = some t) : Step s e t := by
  cases e with
  | start r =>
    simp only [step, Option.ite_none_right_eq_some] at h
    exact .start h.1.2 h.2
  | poll =>
    obtain ⟨w, hw, rfl⟩ := Option.map_eq_some_iff.1 h
    exact .poll hw
  | startThread =>
    simp only [step, Option.ite_none_right_eq_some, Option.some.injEq] at h
    obtain ⟨hcreated, rfl⟩ := h
    exact .startThread hcreated
  | server e =>
    simp only [step, Option.ite_none_right_eq_some] at h
    obtain ⟨server, hserver, rfl⟩ := Option.map_eq_some_iff.1 h.2
    exact .server hserver
  | threadEnd =>
    simp only [step, Option.ite_none_right_eq_some, Option.some.injEq] at h
    obtain ⟨⟨hrunning, halive⟩, rfl⟩ := h
    exact .threadEnd hrunning halive

/-! ## The invariant -/

/-- A cycle stands on its own: what `Start` has returned is due to that call, and once the loop thread has
ended after `Close` the fields that the next cycle reads are as at first. -/
structure Standing (s : StartCycles B) : Prop where
  returned : ∀ r, s.waiting.returned = some r → r.Stands
  reset : s.ended = true → s.server.isClosed = true ∧ s.server.isUserAskForClosed = false ∧
    s.waiting.status = .dis

/-- `Start` reads the status for the last time when it has been written since the call began, and the
loop thread does not end after `Close`. -/
def Timely (s : StartCycles B) (e : Event B) : Prop :=
  (e = .poll → s.waiting.Timely) ∧ (e = .threadEnd → s.server.isUserAskForClosed = false)

/-- The invariant of timely runs. The status has been written when the thread runs, and no failure is
ever reported. -/
structure Inv (s : StartCycles B) : Prop where
  waiting : s.waiting.Sound
  outcomes : s.waiting.outcomes.head? ≠ some false
  written : s.thread = .running → s.waiting.status ≠ .dis
  going : s.ended = false

variable {s} {t : StartCycles B}

theorem Inv.standing (h : s.Inv) : s.Standing := by
  refine ⟨h.waiting.returned, fun hended => ?_⟩
  rw [h.going] at hended
  cases hended

theorem inv_start : (start B).Inv := ⟨Waiting.sound_start, nofun, nofun, rfl⟩

theorem Inv.setServer (h : s.Inv) (server : CTCPServer B) : ({ s with server := server }).Inv :=
  ⟨h.waiting, h.outcomes, h.written, h.going⟩

theorem Inv.refuse (h : s.Inv) : s.refuse.Inv := ⟨h.waiting.refuse, h.outcomes, h.written, h.going⟩

theorem Inv.initHandle (h : s.Inv) (r : StartResults) : (s.initHandle r).Inv := by
  unfold StartCycles.initHandle
  split_ifs
  · exact h
  · exact h.setServer _
  · exact h

theorem Inv.listen (h : s.Inv) (r : StartResults) : (s.listen r).Inv := by
  have hinit := h.initHandle r
  have hlistening := hinit.setServer { (s.initHandle r).server with listening := true }
  unfold StartCycles.listen
  dsimp only
  split_ifs
  · exact hinit.refuse
  · exact hlistening.refuse
  · exact ⟨hinit.waiting.enter, hinit.outcomes, nofun, hinit.going⟩

/-- **`Start`** begins with nothing reported. -/
theorem inv_callStart (hidle : s.thread = .none) {r : StartResults} (hcall : s.callStart r = some t) :
    t.Inv := by
  obtain ⟨server, -, rfl⟩ := Option.map_eq_some_iff.1 hcall
  have hnothing : ([] : List Bool).head? ≠ some false := nofun
  refine Inv.listen ⟨Waiting.sound_call s.waiting, hnothing, fun hrunning => ?_, rfl⟩ r
  dsimp only at hrunning
  rw [hidle] at hrunning
  cases hrunning

theorem inv_step (h : s.Inv) {e : Event B} (htimely : Timely s e) (hstep : s.step e = some t) :
    t.Inv := by
  cases step_cases hstep with
  | start hidle hcall => exact inv_callStart hidle hcall
  | poll hw =>
    refine ⟨h.waiting.pollStep (htimely.1 rfl) hw, ?_, fun hrunning => ?_, h.going⟩
    · rw [Waiting.outcomes_pollStep hw]
      exact h.outcomes
    · exact Waiting.status_ne_dis (h.written hrunning) hw
  | startThread =>
    refine ⟨h.waiting.report h.outcomes, ?_, fun _ => Waiting.status_report true, h.going⟩
    show (s.waiting.outcomes ++ [true]).head? ≠ some false
    have hfirst := h.outcomes
    cases hout : s.waiting.outcomes with
    | nil => nofun
    | cons o os =>
      rw [hout] at hfirst
      exact hfirst
  | server => exact h.setServer _
  | threadEnd => exact ⟨h.waiting, h.outcomes, nofun, htimely.2 rfl⟩

/-- **A step that is not timely** leaves a cycle that does not stand on its own. -/
theorem not_standing (h : s.Inv) {e : Event B} (htimely : ¬ Timely s e) (hstep : s.step e = some t) :
    ¬ t.Standing := by
  intro hstanding
  refine htimely ⟨?_, ?_⟩
  · rintro rfl
    by_contra hnot
    cases step_cases hstep with
    | poll hw =>
      obtain ⟨r, hr, hstands⟩ := h.waiting.not_stands hnot hw
      exact hstands (hstanding.returned r hr)
  · rintro rfl
    by_contra hflag
    cases step_cases hstep with
    | threadEnd hrunning =>
      exact h.written hrunning (hstanding.reset (Bool.eq_true_of_not_eq_false hflag)).2.2

/-- **The cycles of the server stand on their own** exactly on timely runs. -/
theorem always_standing_iff (es : List (Event B)) :
    Always step Standing (start B) es ↔ Along step Timely (start B) es :=
  always_iff_along (A := fun _ => True) (I := Inv) (fun _ _ _ h _ hok hstep => inv_step h hok hstep)
    (fun _ _ _ h _ hok hstep => not_standing h hok hstep) (fun _ h => h.standing)
    inv_start fun _ _ => trivial

/-! ## Calls that find nothing written -/

theorem waiting_initHandle (s : StartCycles B) (r : StartResults) :
    (s.initHandle r).waiting = s.waiting := by
  unfold initHandle
  split_ifs <;> rfl

theorem waiting_listen (s : StartCycles B) (r : StartResults) :
    (s.listen r).waiting = s.waiting.refuse ∨ (s.listen r).waiting = s.waiting.enter := by
  unfold StartCycles.listen refuse
  dsimp only
  rw [waiting_initHandle]
  split_ifs
  · exact .inl rfl
  · exact .inl rfl
  · exact .inr rfl

theorem fresh_step (h : s.waiting.Fresh) {e : Event B}
    (hdis : ∀ r, e = .start r → s.waiting.status = .dis) (hstep : s.step e = some t) :
    t.waiting.Fresh := by
  cases step_cases hstep with
  | @start r t hidle hcall =>
    obtain ⟨server, -, rfl⟩ := Option.map_eq_some_iff.1 hcall
    have hfresh := h.call (hdis r rfl)
    rcases waiting_listen { s with server := server, waiting := s.waiting.call, ended := false } r with
      hrefused | hentered
    · rw [hrefused]
      exact hfresh.refuse
    · rw [hentered]
      exact hfresh.enter
  | poll hw => exact h.pollStep hw
  | startThread => exact Waiting.fresh_report _ _
  | server | threadEnd => exact h

/-- **`Start` reads what has been written for it** as long as it is called when the status is `dis`. -/
theorem timely_of_dis {es : List (Event B)}
    (h : Along step (fun s e => ∀ r, e = .start r → s.waiting.status = .dis) (start B) es) :
    Along step (fun s e => e = .poll → s.waiting.Timely) (start B) es :=
  h.imp (I := fun s => s.waiting.Fresh) (fun _ _ _ hs hdis hstep => fresh_step hs hdis hstep)
    (fun _ _ hs _ _ => hs.timely) Waiting.fresh_start

end StartCycles

end SimpleUv
