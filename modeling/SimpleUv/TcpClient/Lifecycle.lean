import SimpleUv.TcpClient.Control
import SimpleUv.TcpClient.Stream

/-!
# The life of the handle

The handle of the connection is opened by `ReconnectTimer` and closed by `AfterRecv` and by `closeinl`,
and its data pointer changes on the way. Three properties of this machine each fail on some schedules:
an attempt to connect begins on a closed handle when the attempts before it succeed before the next tick
(`oneAttempt_of_prompt`), the handle is closed from `closeinl` on unless that does not visit the open handle
of the first connection (`Quiet.step`), and callbacks find the data they cast to unless `closeinl` closes the
handle or finds it with its callback to come (`typed_of_unhurried`).
-/

namespace SimpleUv

open Foundations

/-- Whether a request to connect is outstanding. -/
def ClientTcp.requested : ClientTcp → Bool
  | .connecting _ | .closing true _ => true
  | _ => false

/-- Whether a request to connect or a close is still to be completed. -/
def ClientTcp.pending : ClientTcp → Bool
  | .connecting _ | .closing _ _ => true
  | _ => false

theorem ClientTcp.isClosing_uvClose (h : ClientTcp) (callback : Bool) :
    (h.uvClose callback).isClosing = true := by
  cases h <;> rfl

namespace CTCPClient

variable {B : Build} {s t : CTCPClient B} {e : Event B}

/-- The calls of `uv_close` on the handle since it was initialised. -/
def Counted (s : CTCPClient B) : Prop := s.closes = if s.tcphandle.isClosing then 1 else 0

/-- **The handle is closed once in each of its lives**, whatever happens. -/
theorem Counted.step (h : s.Counted) (hstep : s.step e = some t) : t.Counted := by
  unfold Counted at h ⊢
  cases step_cases hstep with
  | closeOpen o hflag hloop hregistered hopen =>
    rw [hopen] at h
    simp only [ClientTcp.isClosing_uvClose, if_true, h, Bool.false_eq_true, if_false]
  | recvError hconn hdata =>
    rw [hconn] at h
    simp only [h]
    rfl
  | closed hconn | closedSilently hconn | refused readStart hconn | connected readStart hconn
  | reconnected readStart hconn | cancelled readStart hconn =>
    rw [hconn] at h
    exact h
  | attemptFailed | attempt => rfl
  | out | received | faulted | userClose | closeRest => exact h

theorem counted_start (memory : List.Vector Byte bufferSize) (u : Uninit) :
    (start B memory u).Counted := rfl

/-! ## Attempts to connect -/

/-- `ReconnectTimer` initialises the handle when it is closed, with its callback done, and issues a
request when no other one is outstanding. -/
def OneAttempt (s : CTCPClient B) (e : Event B) : Prop :=
  ∀ r, e = .timer r → s.isReconnecting = true →
    (s.tcphandle = .closed ∧ s.closes = 1) ∧
      (r.tcpInit = 0 → r.ipAddr = 0 → s.tcphandle.requested = false)

/-- The timer does not tick while a request or a close is pending, and no request fails while the
client is reconnecting. -/
def Prompt (s : CTCPClient B) (e : Event B) : Prop :=
  s.isReconnecting = true → (∀ r, e = .timer r → s.tcphandle.pending = false) ∧
    ∀ status readStart, e = .connected status readStart → status = 0

/-- While the client is reconnecting, the handle is closed or something is pending. -/
def Between (s : CTCPClient B) : Prop :=
  s.isReconnecting = true → s.tcphandle = .closed ∨ s.tcphandle.pending = true

theorem Between.step (h : s.Between) (hok : s.Prompt e) (hstep : s.step e = some t) : t.Between := by
  cases step_cases hstep with
  | closeOpen | closeRest | reconnected => exact nofun
  | recvError | attemptFailed | attempt | cancelled => exact fun _ => .inr rfl
  | closed | closedSilently => exact fun _ => .inl rfl
  | refused readStart hconn hdata hstatus =>
    exact fun hreconnecting => absurd ((hok hreconnecting).2 _ _ rfl) hstatus
  | connected readStart hconn hdata hreconnecting =>
    exact fun ht => absurd (hreconnecting.symm.trans ht) Bool.false_ne_true
  | out | received | faulted | userClose => exact h

/-- **One attempt at a time on a closed handle**, in every run in which each attempt to reconnect
succeeds before the next tick of the timer. -/
theorem oneAttempt_of_prompt (memory : List.Vector Byte bufferSize) (u : Uninit)
    (es : List (Event B)) (h : Along step Prompt (start B memory u) es) :
    Along step OneAttempt (start B memory u) es := by
  refine h.imp (I := fun s => s.Counted ∧ s.Between) ?_ ?_ ⟨counted_start memory u, nofun⟩
  · exact fun s e t hs hok hstep => ⟨hs.1.step hstep, hs.2.step hok hstep⟩
  · rintro s e ⟨hcounted, hbetween⟩ hok r rfl hreconnecting
    have hpending := (hok hreconnecting).1 r rfl
    have hclosed : s.tcphandle = .closed := (hbetween hreconnecting).resolve_right
      (by rw [hpending]; exact Bool.false_ne_true)
    unfold Counted at hcounted
    rw [hclosed] at hcounted ⊢
    exact ⟨⟨rfl, hcounted⟩, fun _ _ => rfl⟩

/-- The connection ends, and the first attempt succeeds. -/
theorem oneAttempt_reconnected : Along step OneAttempt zeroStart
    [.connected 0 0, .recvError, .closed, .timer .ok, .connected 0 0] := by
  refine oneAttempt_of_prompt _ _ _ (.cons rfl nofun (.cons rfl nofun (.cons rfl ?_ (.cons rfl ?_
    (.cons rfl ?_ trivial)))))
  · exact fun _ => ⟨nofun, nofun⟩
  · exact fun _ => ⟨fun _ _ => rfl, nofun⟩
  · rintro -
    refine ⟨nofun, ?_⟩
    rintro status readStart ⟨⟩
    rfl

/-- The attempt fails, and the timer ticks again. -/
def refusedRun : List (Event zeroBuild) :=
  [.connected 0 0, .recvError, .closed, .timer .ok, .connected (-111) 0, .timer .ok]

/-- Nothing has closed the handle when it is initialised again. -/
theorem refused_reinitialised : ¬ Along step OneAttempt zeroStart refusedRun := by
  intro h
  have hlast := (h _ rfl).2 _ rfl |>.2 _ rfl |>.2 _ rfl |>.2 _ rfl |>.2 _ rfl |>.1
  exact absurd (hlast .ok rfl rfl).1.1 nofun

/-! ## Closing the connection -/

/-- After `closeinl` the handle of the connection is closing or closed, by one `uv_close`, and the timer is off
for good. -/
def Quiet (s : CTCPClient B) : Prop :=
  s.loopCloses ≠ 0 → s.tcphandle.isClosing = true ∧ s.closes = 1 ∧ s.isReconnecting = false ∧
    s.timerReconnet = false

/-- When `closeinl` runs, `uv_walk` visits the handle, or the handle is closing or closed. -/
def Walked (s : CTCPClient B) (e : Event B) : Prop :=
  e = .async → s.isUserAskForClosed = true → s.loopCloses = 0 →
    s.registered = true ∨ s.tcphandle.isClosing = true

theorem Quiet.step (h : s.Quiet) (hcounted : s.Counted) (hok : s.Walked e) (hstep : s.step e = some t) :
    t.Quiet := by
  have hcounted' := hcounted.step hstep
  cases step_cases hstep with
  | closeOpen o hflag hloop hregistered hopen =>
    have hclosing := ClientTcp.isClosing_uvClose s.tcphandle true
    unfold Counted at hcounted'
    simp only [hclosing, if_true] at hcounted'
    exact fun _ => ⟨hclosing, hcounted', rfl, rfl⟩
  | closeRest o hflag hloop hconn =>
    have hclosing : s.tcphandle.isClosing = true := by
      rcases hok rfl hflag hloop with hregistered | hclosing
      · exact hconn.resolve_left (by rw [hregistered]; exact Bool.noConfusion)
      · exact hclosing
    unfold Counted at hcounted
    rw [if_pos hclosing] at hcounted
    exact fun _ => ⟨hclosing, hcounted, rfl, rfl⟩
  | recvError hconn | refused readStart hconn | connected readStart hconn
  | reconnected readStart hconn =>
    intro hne
    have hclosing := (h hne).1
    rw [hconn] at hclosing
    cases hclosing
  | attemptFailed r hreconnecting | attempt hreconnecting =>
    intro hne
    have hoff := (h hne).2.2.1
    rw [hreconnecting] at hoff
    cases hoff
  | closed | cancelled =>
    intro hne
    obtain ⟨-, hcloses, hoff, htimer⟩ := h hne
    refine ⟨rfl, hcloses, hoff, ?_⟩
    rw [hoff, htimer]
    rfl
  | closedSilently =>
    intro hne
    obtain ⟨-, hcloses, hoff, htimer⟩ := h hne
    exact ⟨rfl, hcloses, hoff, htimer⟩
  | out | received | faulted | userClose => exact h

/-! ## The data pointer -/

/-- The next callback on the handle finds what it casts the data pointer to. -/
def Typed (s : CTCPClient B) : Prop :=
  (s.tcphandle.requested = true → s.data = .ctx) ∧
  (∀ n, s.tcphandle = .connected n true → s.data = .ctx) ∧
  (s.tcphandle = .closing false true → s.data = .client)

/-- When `closeinl` runs, it does not close the handle, and `AfterClientClose` is not to come. -/
def Unhurried (s : CTCPClient B) (e : Event B) : Prop :=
  e = .async → s.isUserAskForClosed = true → s.loopCloses = 0 →
    (s.registered = true → s.tcphandle.isClosing = true) ∧ ∀ c, s.tcphandle ≠ .closing c true

/-- What the data pointer is in each stage of the handle. -/
def DataOf (s : CTCPClient B) : Prop :=
  match s.tcphandle with
  | .closed => True
  | .connecting _ | .refused _ | .connected _ _ => s.data = .ctx
  | .closing connect callback => connect = false ∧ (callback = true → s.data = .client)

theorem DataOf.typed (h : s.DataOf) : s.Typed := by
  unfold DataOf at h
  refine ⟨fun hrequested => ?_, fun n hconn => ?_, fun hconn => ?_⟩
  · cases hconn : s.tcphandle with
    | connecting n =>
      rw [hconn] at h
      exact h
    | closing connect callback =>
      rw [hconn] at h hrequested
      obtain ⟨rfl, -⟩ := h
      cases hrequested
    | closed | refused n | connected n reading =>
      rw [hconn] at hrequested
      cases hrequested
  · rw [hconn] at h
    exact h
  · rw [hconn] at h
    exact h.2 rfl

theorem DataOf.step (h : s.DataOf) (hok : s.Unhurried e) (hstep : s.step e = some t) : t.DataOf := by
  unfold DataOf at h ⊢
  cases step_cases hstep with
  | closeOpen o hflag hloop hregistered hopen =>
    have hclosing := (hok rfl hflag hloop).1 hregistered
    rw [hopen] at hclosing
    cases hclosing
  | closeRest o hflag hloop hconn =>
    have hcallback := (hok rfl hflag hloop).2
    cases hstage : s.tcphandle with
    | closed => trivial
    | connecting n | refused n | connected n reading => rfl
    | closing connect callback =>
      rw [hstage] at h
      refine ⟨h.1, ?_⟩
      rintro rfl
      exact absurd hstage (hcallback connect)
  | recvError => exact ⟨rfl, fun _ => rfl⟩
  | closed | closedSilently => trivial
  | attemptFailed => exact ⟨rfl, nofun⟩
  | attempt | reconnected => rfl
  | refused readStart hconn hdata | connected readStart hconn hdata => exact hdata
  | cancelled readStart hconn =>
    rw [hconn] at h
    exact ⟨rfl, h.2⟩
  | out | received | faulted | userClose => exact h

/-- **Callbacks find the data they cast to** in every run in which `closeinl` neither closes the handle
nor finds `AfterClientClose` still to come. -/
theorem typed_of_unhurried (memory : List.Vector Byte bufferSize) (u : Uninit) (es : List (Event B))
    (h : Along step Unhurried (start B memory u) es) :
    Always step Typed (start B memory u) es :=
  (always_of_along (fun _ _ _ hs hok hstep => DataOf.step hs hok hstep) (by exact rfl) h).mono
    fun _ hs => hs.typed

/-- The client is closed while it waits for its reconnection. -/
theorem typed_waiting : Always step Typed zeroStart
    [.connected 0 0, .recvError, .closed, .userClose, .async] := by
  refine typed_of_unhurried _ _ _ (.cons rfl nofun (.cons rfl nofun (.cons rfl nofun
    (.cons rfl nofun fun t ht => ⟨fun _ _ _ => ⟨nofun, fun _ => nofun⟩, trivial⟩))))

/-- The client is closed after a reconnection. -/
def reconnectedClose : List (Event zeroBuild) :=
  [.connected 0 0, .recvError, .closed, .timer .ok, .connected 0 0, .userClose, .async]

/-- `AfterClientClose` finds the context of the connection where it expects the client. -/
theorem reconnectedClose_mistyped : ¬ Always step Typed zeroStart reconnectedClose := by
  intro h
  exact absurd ((h.last (t := _) rfl).2.2 rfl) nofun

end CTCPClient

end SimpleUv
