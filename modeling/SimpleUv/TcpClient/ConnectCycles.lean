import SimpleUv.TcpClient.Control
import SimpleUv.TcpClient.LoopThreadSend
import SimpleUv.TcpHandle.Waiting

/-!
# Cycles of the client

A cycle begins with a call of `Connect` and ends when the loop thread that the call has created ends. As
libuv allows one thread in a loop, `Connect` is called when the loop thread of the cycle before has
ended. The part of the call before it waits is one step; `Connect6` differs in `uv_ip6_addr`. The loop
thread ends when no handle is active and no request is pending, which is not before the two async handles
are closed. `ended` says that it has ended after `Close`, and no cycle has begun since.
-/

namespace SimpleUv

open Foundations

/-- The handle keeps the loop running. -/
def ClientTcp.isActive : ClientTcp → Bool
  | .connecting _ | .connected _ true | .closing _ _ => true
  | .closed | .refused _ | .connected _ false => false

/-- The results of the calls in `Connect`: those of `CTCPHandle::init`, of `CTCPClient::init`, and its
own. -/
structure ConnectResults where
  asyncInit : ℤ
  tcpInit : ℤ
  timerInit : ℤ
  ipAddr : ℤ
  tcpConnect : ℤ
  threadCreate : ℤ

/-- All calls succeed. -/
def ConnectResults.ok : ConnectResults := ⟨0, 0, 0, 0, 0, 0⟩

/-- The client over its cycles. -/
structure ConnectCycles (B : Build) where
  client : CTCPClient B
  isClosed : Bool
  waiting : Waiting
  running : Bool
  ended : Bool

namespace ConnectCycles

variable {B : Build} (s : ConnectCycles B)

/-- The constructor. -/
def start (B : Build) (memory : List.Vector Byte bufferSize) (u : Uninit) : ConnectCycles B where
  client := { CTCPClient.start B memory u with tcphandle := .closed, packet := .construct u }
  isClosed := true
  waiting := .start
  running := false
  ended := false

/-- `CTCPHandle::init`, and whether it succeeds. -/
def initHandle (r : ConnectResults) : ConnectCycles B × Bool :=
  if s.isClosed then
    if r.asyncInit ≠ 0 ∨ r.tcpInit ≠ 0 then (s, false)
    else ({ s with isClosed := false, client := { s.client with loopCloses := 0 } }, true)
  else (s, true)

/-- `CTCPClient::init`. The handle of the connection becomes a copy of the handle in the loop. -/
def init (r : ConnectResults) : ConnectCycles B × Bool :=
  let (s, ok) := s.initHandle r
  if ok then
    ({ s with client := { s.client with
        tcphandle := .closed
        registered := false
        closes := 0
        data := .ctx
        packet := s.client.packet.setPacketCb.start serverPacketHead serverPacketTail } },
      r.timerInit = 0)
  else (s, false)

/-- `closeinl`, which does nothing before the first `init`. -/
def closeinl : ConnectCycles B :=
  if s.isClosed then s else { s with client := s.client.closeinl }

/-- The call returns without waiting. -/
def refuse : ConnectCycles B := { s with waiting := s.waiting.refuse }

/-- `Connect`, until it waits. -/
def connect (r : ConnectResults) : ConnectCycles B :=
  let s := { s with waiting := s.waiting.call, ended := false }
  let (s, ok) := s.closeinl.init r
  if ¬ ok ∨ r.ipAddr ≠ 0 ∨ r.tcpConnect ≠ 0 then s.refuse
  else
    let s := { s with client := { s.client with
      tcphandle := .connecting s.client.connectionEnd
      connectionEnd := s.client.connectionEnd + 1 } }
    if r.threadCreate ≠ 0 then s.refuse
    else { s with waiting := s.waiting.enter, running := true }

/-- The loop has something to wait for. -/
def Alive : Prop :=
  s.client.loopCloses = 0 ∨ s.client.tcphandle.isActive = true ∨ s.client.timerReconnet = true ∨
    s.client.out.inflight.isEmpty = false ∨ ¬ s.client.Idle

instance : Decidable s.Alive := by
  unfold Alive
  infer_instance

/-- A thread calls `Connect`, or goes on in it; an event of the client; the loop thread ends. -/
inductive Event (B : Build)
  | connect (r : ConnectResults)
  | poll
  | client (e : CTCPClient.Event B)
  | threadEnd

/-- What `AfterConnect` writes to the status. -/
def reported (w : Waiting) : CTCPClient.Event B → Waiting
  | .connected status readStart => w.report (status = 0 ∧ readStart = 0)
  | _ => w

/-- What an event does. At the end of `ConnectThread` nothing is reset. Before the first `init` the
client has no handles. -/
def step : Event B → Option (ConnectCycles B)
  | .connect r => if s.waiting.poll = none ∧ s.running = false then some (s.connect r) else none
  | .poll => s.waiting.pollStep.map fun waiting => { s with waiting := waiting }
  | .client e =>
    if s.isClosed = false ∧ (e.OfUser ∨ s.running = true) then
      (s.client.step e).map fun client =>
        { s with client := client, waiting := reported s.waiting e }
    else none
  | .threadEnd =>
    if s.running = true ∧ ¬ s.Alive then
      some { s with running := false, ended := s.client.isUserAskForClosed }
    else none

/-- The ways an event can go. -/
inductive Step (s : ConnectCycles B) : Event B → ConnectCycles B → Prop
  | connect (r : ConnectResults) (hpoll : s.waiting.poll = none) (hidle : s.running = false) :
      Step s (.connect r) (s.connect r)
  | poll {w : Waiting} (hw : s.waiting.pollStep = some w) : Step s .poll { s with waiting := w }
  | connected (status readStart : ℤ) {d : CTCPClient B} (hopen : s.isClosed = false)
      (hd : s.client.step (.connected status readStart) = some d) :
      Step s (.client (.connected status readStart))
        { s with client := d, waiting := s.waiting.report (status = 0 ∧ readStart = 0) }
  | client {e : CTCPClient.Event B} {d : CTCPClient B} (hopen : s.isClosed = false)
      (he : ∀ status readStart, e ≠ .connected status readStart) (hd : s.client.step e = some d) :
      Step s (.client e) { s with client := d }
  | threadEnd (hrunning : s.running = true) (halive : ¬ s.Alive) :
      Step s .threadEnd { s with running := false, ended := s.client.isUserAskForClosed }

theorem step_cases {s t : ConnectCycles B} {e : Event B} (h : s.step e = some t) : Step s e t := by
  cases e with
  | connect r =>
    simp only [step, Option.ite_none_right_eq_some, Option.some.injEq] at h
    obtain ⟨⟨hpoll, hidle⟩, rfl⟩ := h
    exact .connect r hpoll hidle
  | poll =>
    obtain ⟨w, hw, rfl⟩ := Option.map_eq_some_iff.1 h
    exact .poll hw
  | client e =>
    simp only [step, Option.ite_none_right_eq_some] at h
    obtain ⟨⟨hopen, -⟩, h⟩ := h
    obtain ⟨d, hd, rfl⟩ := Option.map_eq_some_iff.1 h
    by_cases he : ∃ status readStart, e = .connected status readStart
    · obtain ⟨status, readStart, rfl⟩ := he
      exact .connected status readStart hopen hd
    · push Not at he
      have hsame : reported s.waiting e = s.waiting := by
        cases e with
        | connected status readStart => exact absurd rfl (he status readStart)
        | _ => rfl
      rw [hsame]
      exact .client hopen he hd
  | threadEnd =>
    simp only [step, Option.ite_none_right_eq_some, Option.some.injEq] at h
    obtain ⟨⟨hrunning, halive⟩, rfl⟩ := h
    exact .threadEnd hrunning halive

/-! ## The attempt of the call in progress -/

/-- The client has no connection, and will not reconnect. -/
structure Blank (c : CTCPClient B) : Prop where
  isReconnecting : c.isReconnecting = false
  timerReconnet : c.timerReconnet = false
  registered : c.registered = false
  tcphandle : c.tcphandle = .closed

/-- The attempt that the call has begun is the first to report an outcome, and when it fails it is the
last: it is pending, it has succeeded, or it has failed and nothing comes after it. -/
def Attempt (c : CTCPClient B) (outcomes : List Bool) : Prop :=
  outcomes.head? = some true ∨
    c.isReconnecting = false ∧ c.timerReconnet = false ∧ c.registered = false ∧
      (outcomes = [] ∧ (c.tcphandle = .closed ∨ ∃ n, c.tcphandle = .connecting n) ∨
        outcomes = [false] ∧ ∃ n, c.tcphandle = .refused n ∨ c.tcphandle = .connected n false)

variable {c d : CTCPClient B} {outcomes : List Bool} {e : CTCPClient.Event B}

theorem Blank.attempt (h : Blank c) : Attempt c [] :=
  .inr ⟨h.isReconnecting, h.timerReconnet, h.registered, .inl ⟨rfl, .inl h.tcphandle⟩⟩

theorem attempt_step (h : Attempt c outcomes) (he : ∀ status readStart, e ≠ .connected status readStart)
    (hstep : c.step e = some d) : Attempt d outcomes := by
  rcases h with hsuccess | ⟨hreconnecting, htimer, hregistered, hhandle⟩
  · exact .inl hsuccess
  · right
    have hnot : ∀ n, c.tcphandle ≠ .connected n true := by
      rintro n hn
      rcases hhandle with ⟨-, h | ⟨m, h⟩⟩ | ⟨-, m, h | h⟩ <;> rw [hn] at h <;> cases h
    have hopen : ∀ a b, c.tcphandle ≠ .closing a b := by
      rintro a b hn
      rcases hhandle with ⟨-, h | ⟨m, h⟩⟩ | ⟨-, m, h | h⟩ <;> rw [hn] at h <;> cases h
    cases CTCPClient.step_cases hstep with
    | out | received | faulted | userClose => exact ⟨hreconnecting, htimer, hregistered, hhandle⟩
    | closeRest => exact ⟨rfl, rfl, hregistered, hhandle⟩
    | closeOpen o hflag hloop hreg =>
      rw [hregistered] at hreg
      cases hreg
    | recvError hconn => exact absurd hconn (hnot _)
    | closed hconn | closedSilently hconn => exact absurd hconn (hopen _ _)
    | attemptFailed r hrec | attempt hrec =>
      rw [hreconnecting] at hrec
      cases hrec
    | refused | connected | reconnected | cancelled => exact absurd rfl (he _ _)

/-- **`AfterConnect`** reports the outcome of the attempt. -/
theorem attempt_report (h : Attempt c outcomes) {status readStart : ℤ}
    (hstep : c.step (.connected status readStart) = some d) :
    outcomes.head? ≠ some false ∧
      Attempt d (outcomes ++ [decide (status = 0 ∧ readStart = 0)]) := by
  rcases h with hsuccess | ⟨hreconnecting, htimer, hregistered, hhandle⟩
  · rw [hsuccess]
    refine ⟨by simp, .inl ?_⟩
    rw [List.head?_append, hsuccess]
    rfl
  · unfold CTCPClient.step at hstep
    split_ifs at hstep
    simp only [CTCPClient.callback, Option.ite_none_right_eq_some] at hstep
    obtain ⟨-, hstep⟩ := hstep
    unfold CTCPClient.afterConnect at hstep
    split at hstep
    · next n hconn hdata =>
      obtain rfl : outcomes = [] := by
        rcases hhandle with ⟨rfl, -⟩ | ⟨-, m, h | h⟩
        · rfl
        · rw [hconn] at h
          cases h
        · rw [hconn] at h
          cases h
      refine ⟨by simp, ?_⟩
      simp only at hstep
      split_ifs at hstep with hstatus hrec
      · cases hstep
        rw [decide_eq_false fun hok => hstatus hok.1]
        exact .inr ⟨hreconnecting, by rw [htimer, hreconnecting]; rfl, hregistered,
          .inr ⟨rfl, n, .inl rfl⟩⟩
      · rw [hreconnecting] at hrec
        cases hrec
      · cases hstep
        by_cases hread : readStart = 0
        · exact .inl (by rw [decide_eq_true ⟨not_not.1 hstatus, hread⟩]; rfl)
        · rw [decide_eq_false hread, decide_eq_false fun hok => hread hok.2]
          exact .inr ⟨hreconnecting, htimer, hregistered, .inr ⟨rfl, n, .inr rfl⟩⟩
    · next hconn hdata =>
      rcases hhandle with ⟨-, h | ⟨m, h⟩⟩ | ⟨-, m, h | h⟩ <;> rw [hconn] at h <;> cases h
    · cases hstep

/-! ## The invariant -/

/-- A cycle stands on its own: what `Connect` has returned is due to that call, and once the loop thread has
ended after `Close` the fields that the next cycle reads are as at first. -/
structure Standing (s : ConnectCycles B) : Prop where
  returned : ∀ r, s.waiting.returned = some r → r.Stands
  reset : s.ended = true → s.isClosed = true ∧ s.client.isUserAskForClosed = false ∧
    s.waiting.status = .dis

/-- `Connect` reads the status for the last time when it has been written since the call began, and the
loop thread does not end after `Close`. -/
def Timely (s : ConnectCycles B) (e : Event B) : Prop :=
  (e = .poll → s.waiting.Timely) ∧ (e = .threadEnd → s.client.isUserAskForClosed = false)

/-- The invariant of timely runs. -/
structure Inv (s : ConnectCycles B) : Prop where
  waiting : s.waiting.Sound
  attempt : Attempt s.client s.waiting.outcomes
  unopened : s.isClosed = true → s.running = false ∧ Blank s.client
  going : s.ended = false

variable {s t : ConnectCycles B}

theorem Inv.standing (h : s.Inv) : s.Standing := by
  refine ⟨h.waiting.returned, fun hended => ?_⟩
  rw [h.going] at hended
  cases hended

theorem inv_start (memory : List.Vector Byte bufferSize) (u : Uninit) : (start B memory u).Inv :=
  have hblank : Blank (start B memory u).client := ⟨rfl, rfl, rfl, rfl⟩
  ⟨Waiting.sound_start, hblank.attempt, fun _ => ⟨rfl, hblank⟩, rfl⟩

theorem closeinl_stops (c : CTCPClient B) :
    c.closeinl.isReconnecting = false ∧ c.closeinl.timerReconnet = false := by
  unfold CTCPClient.closeinl CTCPClient.closeWalk CTCPClient.stopReconnect
  dsimp only
  split_ifs <;> exact ⟨rfl, rfl⟩

/-- The client before `init` takes over the handle. -/
theorem initHandle_spec (h : s.isClosed = true → Blank s.client) (r : ConnectResults) :
    ∃ t ok, s.closeinl.initHandle r = (t, ok) ∧ t.client.isReconnecting = false ∧
      t.client.timerReconnet = false ∧ (ok = false → Blank t.client) ∧
      (t.isClosed = true → s.isClosed = true ∧ ok = false) ∧
      t.waiting = s.waiting ∧ t.running = s.running ∧ t.ended = s.ended := by
  unfold closeinl initHandle
  cases hclosed : s.isClosed with
  | true =>
    obtain ⟨hreconnecting, htimer, -⟩ := h hclosed
    simp only [if_true, hclosed]
    by_cases hr : r.asyncInit ≠ 0 ∨ r.tcpInit ≠ 0
    · rw [if_pos hr]
      exact ⟨_, _, rfl, hreconnecting, htimer, fun _ => h hclosed, fun _ => ⟨trivial, rfl⟩, rfl, rfl, rfl⟩
    · rw [if_neg hr]
      exact ⟨_, _, rfl, hreconnecting, htimer, nofun, nofun, rfl, rfl, rfl⟩
  | false =>
    obtain ⟨hreconnecting, htimer⟩ := closeinl_stops s.client
    simp only [Bool.false_eq_true, if_false]
    exact ⟨_, _, rfl, hreconnecting, htimer, nofun, nofun, rfl, rfl, rfl⟩

/-- **`init`** leaves a client without a connection. -/
theorem init_spec (h : s.isClosed = true → Blank s.client) (r : ConnectResults) :
    ∃ t ok, s.closeinl.init r = (t, ok) ∧ Blank t.client ∧
      (t.isClosed = true → s.isClosed = true ∧ ok = false) ∧
      t.waiting = s.waiting ∧ t.running = s.running ∧ t.ended = s.ended := by
  obtain ⟨t, ok, hinit, hreconnecting, htimer, hfail, hclosed, hrest⟩ := initHandle_spec h r
  unfold init
  rw [hinit]
  cases ok with
  | false => exact ⟨t, false, rfl, hfail rfl, hclosed, hrest⟩
  | true =>
    refine ⟨_, _, rfl, ⟨hreconnecting, htimer, rfl, rfl⟩, fun h => ?_, hrest⟩
    cases (hclosed h).2

/-- **`Connect`** begins with an attempt that is pending. -/
theorem Inv.connect (h : s.Inv) (hidle : s.running = false) (r : ConnectResults) :
    (s.connect r).Inv := by
  obtain ⟨t, ok, hinit, hblank, hclosed, hwaiting, hrunning, hended⟩ :=
    init_spec (s := { s with waiting := s.waiting.call, ended := false })
      (fun hclosed => (h.unopened hclosed).2) r
  have hsound : t.waiting.Sound := hwaiting ▸ Waiting.sound_call s.waiting
  have hout : t.waiting.outcomes = [] := by rw [hwaiting]; rfl
  have hrun : t.running = false := hrunning.trans hidle
  have hpending : ∀ n m, Attempt { t.client with tcphandle := .connecting n, connectionEnd := m }
      t.waiting.outcomes := by
    intro n m
    rw [hout]
    exact .inr ⟨hblank.isReconnecting, hblank.timerReconnet, hblank.registered,
      .inl ⟨rfl, .inr ⟨n, rfl⟩⟩⟩
  simp only [ConnectCycles.connect, hinit]
  split_ifs with hfail hthread
  · refine ⟨hsound.refuse, ?_, fun _ => ⟨hrun, hblank⟩, hended⟩
    show Attempt t.client t.waiting.outcomes
    rw [hout]
    exact hblank.attempt
  · refine ⟨hsound.refuse, hpending _ _, fun h => ?_, hended⟩
    exact absurd (hclosed h).2 fun hok => hfail (.inl (by rw [hok]; exact Bool.false_ne_true))
  · refine ⟨hsound.enter, hpending _ _, fun h => ?_, hended⟩
    exact absurd (hclosed h).2 fun hok => hfail (.inl (by rw [hok]; exact Bool.false_ne_true))

theorem inv_step (h : s.Inv) {e : Event B} (htimely : Timely s e) (hstep : s.step e = some t) :
    t.Inv := by
  have hunopened : s.isClosed = false → ∀ d : CTCPClient B, s.isClosed = true →
      s.running = false ∧ Blank d := by
    intro hopen d hclosed
    rw [hopen] at hclosed
    cases hclosed
  cases step_cases hstep with
  | connect r hpoll hidle => exact h.connect hidle r
  | poll hw =>
    refine ⟨h.waiting.pollStep (htimely.1 rfl) hw, ?_, h.unopened, h.going⟩
    rw [Waiting.outcomes_pollStep hw]
    exact h.attempt
  | connected status readStart hopen hd =>
    obtain ⟨hfirst, hattempt⟩ := attempt_report h.attempt hd
    exact ⟨h.waiting.report hfirst, hattempt, hunopened hopen _, h.going⟩
  | client hopen he hd => exact ⟨h.waiting, attempt_step h.attempt he hd, hunopened hopen _, h.going⟩
  | threadEnd =>
    exact ⟨h.waiting, h.attempt, fun hclosed => ⟨rfl, (h.unopened hclosed).2⟩, htimely.2 rfl⟩

/-- **A step that is not timely** leaves a cycle that does not stand on its own. -/
theorem not_standing (h : s.Inv) {e : Event B} (htimely : ¬ Timely s e) (hstep : s.step e = some t) :
    ¬ t.Standing := by
  intro hstanding
  refine htimely ⟨?_, ?_⟩
  · rintro rfl
    by_contra hnot
    cases step_cases hstep with
    | poll hw =>
      obtain ⟨r, hr, hstands⟩ := h.waiting.not_stands hnot hw
      exact hstands (hstanding.returned r hr)
  · rintro rfl
    by_contra hflag
    cases step_cases hstep with
    | threadEnd hrunning =>
      have hclosed := (hstanding.reset (Bool.eq_true_of_not_eq_false hflag)).1
      have hidle := (h.unopened hclosed).1
      rw [hrunning] at hidle
      cases hidle

/-- **The cycles of the client stand on their own** exactly on timely runs. -/
theorem always_standing_iff (memory : List.Vector Byte bufferSize) (u : Uninit) (es : List (Event B)) :
    Always step Standing (start B memory u) es ↔ Along step Timely (start B memory u) es :=
  always_iff_along (A := fun _ => True) (I := Inv) (fun _ _ _ h _ hok hstep => inv_step h hok hstep)
    (fun _ _ _ h _ hok hstep => not_standing h hok hstep) (fun _ h => h.standing)
    (inv_start memory u) fun _ _ => trivial

/-! ## Calls that find nothing written -/

theorem waiting_init (s : ConnectCycles B) (r : ConnectResults) :
    (s.closeinl.init r).1.waiting = s.waiting := by
  unfold init initHandle closeinl
  split_ifs <;> rfl

theorem waiting_connect (s : ConnectCycles B) (r : ConnectResults) :
    (s.connect r).waiting = s.waiting.call.refuse ∨ (s.connect r).waiting = s.waiting.call.enter := by
  have hinit := waiting_init { s with waiting := s.waiting.call, ended := false } r
  unfold connect refuse
  dsimp only
  rw [hinit]
  split_ifs
  · exact .inl rfl
  · exact .inl rfl
  · exact .inr rfl

theorem fresh_step (h : s.waiting.Fresh) {e : Event B}
    (hdis : ∀ r, e = .connect r → s.waiting.status = .dis) (hstep : s.step e = some t) :
    t.waiting.Fresh := by
  cases step_cases hstep with
  | connect r =>
    have hcall := h.call (hdis r rfl)
    rcases waiting_connect s r with hrefused | hentered
    · rw [hrefused]
      exact hcall.refuse
    · rw [hentered]
      exact hcall.enter
  | poll hw => exact h.pollStep hw
  | connected => exact Waiting.fresh_report _ _
  | client | threadEnd => exact h

/-- **`Connect` reads what has been written for it** as long as it is called when the status is `dis`. -/
theorem timely_of_dis (memory : List.Vector Byte bufferSize) (u : Uninit) {es : List (Event B)}
    (h : Along step (fun s e => ∀ r, e = .connect r → s.waiting.status = .dis) (start B memory u) es) :
    Along step (fun s e => e = .poll → s.waiting.Timely) (start B memory u) es :=
  h.imp (I := fun s => s.waiting.Fresh) (fun _ _ _ hs hdis hstep => fresh_step hs hdis hstep)
    (fun _ _ hs _ _ => hs.timely) Waiting.fresh_start

end ConnectCycles

end SimpleUv
