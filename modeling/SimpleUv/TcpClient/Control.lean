import SimpleUv.TcpClient.Client

/-!
# What a step does to the connection

`Step` lists what an event can do to the client besides its outgoing side: data is parsed, the user
closes the client, and the handle of the connection moves on. Invariants of the connection are proved
by cases on it.
-/

namespace SimpleUv

open Foundations

namespace CTCPClient

variable {B : Build}

/-- The steps of the client, up to its outgoing side. -/
inductive Step (s : CTCPClient B) : Event B → CTCPClient B → Prop
  | out (e : Event B) (o : Outbound B) : Step s e { s with out := o }
  | received {n : ℕ} {reading : Bool} {c : Chunk B} {p : CPacketSync} {ds : List Delivery}
      (o : Outbound B) (hconn : s.tcphandle = .connected n reading)
      (hloop : s.out.loop = .sendInl (some c)) (hc : c.bytes ≠ [])
      (hcall : s.packet.recvdata B c.bytes = .done p ds) :
      Step s .drain { s with
        out := o
        packet := p
        connections := Function.update s.connections n
          ⟨(s.connections n).received ++ [c], (s.connections n).parsed ++ ds.map Delivery.packet⟩ }
  | faulted {n : ℕ} {reading : Bool} {c : Chunk B} (o : Outbound B)
      (hconn : s.tcphandle = .connected n reading) (hloop : s.out.loop = .sendInl (some c))
      (hc : c.bytes ≠ []) (hcall : ∀ p ds, s.packet.recvdata B c.bytes ≠ .done p ds) :
      Step s .drain { s with
        out := o
        connections := Function.update s.connections n
          ⟨(s.connections n).received ++ [c], (s.connections n).parsed⟩
        crashed := true }
  | userClose (o : Outbound B) : Step s .userClose { s with isUserAskForClosed := true, out := o }
  | closeOpen (o : Outbound B) (hflag : s.isUserAskForClosed = true) (hloop : s.loopCloses = 0)
      (hregistered : s.registered = true) (hopen : s.tcphandle.isClosing = false) :
      Step s .async { s with
        out := o, isReconnecting := false, data := .ctx, timerReconnet := false, loopCloses := 1,
        tcphandle := s.tcphandle.uvClose true, closes := s.closes + 1 }
  | closeRest (o : Outbound B) (hflag : s.isUserAskForClosed = true) (hloop : s.loopCloses = 0)
      (hconn : s.registered = false ∨ s.tcphandle.isClosing = true) :
      Step s .async { s with
        out := o, isReconnecting := false, data := .ctx, timerReconnet := false, loopCloses := 1 }
  | recvError {n : ℕ} (hconn : s.tcphandle = .connected n true) (hdata : s.data = .ctx) :
      Step s .recvError { s with
        isReconnecting := true, data := .client, tcphandle := .closing false true,
        closes := s.closes + 1 }
  | closed (hconn : s.tcphandle = .closing false true) (hdata : s.data = .client) :
      Step s .closed { s with
        tcphandle := .closed, registered := false,
        timerReconnet := s.timerReconnet || s.isReconnecting }
  | closedSilently (hconn : s.tcphandle = .closing false false) :
      Step s .closed { s with tcphandle := .closed, registered := false }
  | attemptFailed (r : ReconnectResults) (hreconnecting : s.isReconnecting = true) :
      Step s (.timer r) { s with
        data := .ctx, registered := true, tcphandle := .closing false false, closes := 1 }
  | attempt (hreconnecting : s.isReconnecting = true) :
      Step s (.timer .ok) { s with
        data := .ctx, registered := true, closes := 0, tcphandle := .connecting s.connectionEnd,
        connectionEnd := s.connectionEnd + 1 }
  | refused {n : ℕ} {status : ℤ} (readStart : ℤ) (hconn : s.tcphandle = .connecting n)
      (hdata : s.data = .ctx) (hstatus : status ≠ 0) :
      Step s (.connected status readStart) { s with
        tcphandle := .refused n, timerReconnet := s.timerReconnet || s.isReconnecting }
  | connected {n : ℕ} (readStart : ℤ) (hconn : s.tcphandle = .connecting n)
      (hdata : s.data = .ctx) (hreconnecting : s.isReconnecting = false) :
      Step s (.connected 0 readStart) { s with tcphandle := .connected n (readStart = 0) }
  | reconnected {n : ℕ} (readStart : ℤ) (hconn : s.tcphandle = .connecting n)
      (hdata : s.data = .ctx) (hreconnecting : s.isReconnecting = true) :
      Step s (.connected 0 readStart) { s with
        tcphandle := .connected n (readStart = 0), isReconnecting := false, data := .ctx,
        timerReconnet := false }
  | cancelled {callback : Bool} {status : ℤ} (readStart : ℤ)
      (hconn : s.tcphandle = .closing true callback) (hdata : s.data = .ctx) (hstatus : status ≠ 0) :
      Step s (.connected status readStart) { s with
        tcphandle := .closing false callback
        timerReconnet := s.timerReconnet || s.isReconnecting }

variable {s t : CTCPClient B} {e : Event B}

theorem step_of_closeinl (o : Outbound B) (hflag : s.isUserAskForClosed = true)
    (hloop : s.loopCloses = 0) : Step s .async (closeinl { s with out := o }) := by
  unfold closeinl closeWalk stopReconnect
  simp only [hloop, if_true]
  split_ifs with hregistered hclosing
  · exact .closeRest o hflag hloop (.inr hclosing)
  · exact .closeOpen o hflag hloop hregistered (Bool.eq_false_iff.2 hclosing)
  · exact .closeRest o hflag hloop (.inl (Bool.eq_false_iff.2 hregistered))

theorem step_of_drain (h : s.drain = some t) : Step s .drain t := by
  unfold drain at h
  split at h
  · next recv hloop =>
    split_ifs at h
    · simp only at h
      split at h
      · cases h
        exact .out _ _
      · next c =>
        unfold parse at h
        split at h
        · next n reading hconn =>
          simp only at h
          split_ifs at h with hc
          · cases h
            exact .out _ _
          · split at h
            · next p ds hcall =>
              cases h
              exact .received _ hconn hloop hc hcall
            · next hcall =>
              cases h
              exact .faulted _ hconn hloop hc hcall
        · cases h
    · obtain ⟨o, -, h⟩ := Option.bind_eq_some_iff.1 h
      cases h
      exact .out _ o
  · cases h

theorem step_of_timer (r : ReconnectResults) : Step s (.timer r) (s.reconnectTimer r) := by
  obtain ⟨tcpInit, ipAddr, tcpConnect⟩ := r
  unfold reconnectTimer
  split_ifs with hreconnecting hinit hconnect
  · exact .out _ s.out
  · exact .attemptFailed _ hreconnecting
  · obtain ⟨rfl, rfl⟩ := not_or.1 hconnect |>.imp not_not.1 not_not.1
    obtain rfl := not_not.1 hinit
    exact .attempt hreconnecting
  · exact .out _ s.out

theorem step_of_connected {status readStart : ℤ} (h : s.afterConnect status readStart = some t) :
    Step s (.connected status readStart) t := by
  unfold afterConnect at h
  split at h
  · next hconn hdata =>
    simp only at h
    split_ifs at h with hstatus hreconnecting
    · cases h
      exact .refused readStart hconn hdata hstatus
    · cases h
      obtain rfl := not_not.1 hstatus
      exact .reconnected readStart hconn hdata hreconnecting
    · cases h
      obtain rfl := not_not.1 hstatus
      exact .connected readStart hconn hdata (Bool.eq_false_iff.2 hreconnecting)
  · next hconn hdata =>
    split_ifs at h with hstatus
    cases h
    exact .cancelled readStart hconn hdata hstatus
  · cases h

/-- **What a step can do to the connection.** -/
theorem step_cases (h : s.step e = some t) : Step s e t := by
  unfold step at h
  split_ifs at h
  cases e with
  | call r data =>
    obtain ⟨o, -, rfl⟩ := Option.map_eq_some_iff.1 h
    exact .out _ o
  | send r =>
    obtain ⟨o, -, rfl⟩ := Option.map_eq_some_iff.1 h
    exact .out _ o
  | userClose =>
    cases h
    exact .userClose _
  | async =>
    simp only [callback, Option.ite_none_right_eq_some, Option.some.injEq] at h
    obtain ⟨⟨-, -, hloop⟩, rfl⟩ := h
    unfold asyncCloseCb
    simp only
    split_ifs with hflag
    · exact step_of_closeinl _ hflag hloop
    · exact .out _ _
  | drain => exact step_of_drain h
  | uvWrite res =>
    simp only [callback, uvWrite, Option.ite_none_left_eq_some] at h
    obtain ⟨o, -, rfl⟩ := Option.map_eq_some_iff.1 h.2
    exact .out _ o
  | afterSend i status =>
    simp only [callback, Option.ite_none_right_eq_some] at h
    obtain ⟨o, -, rfl⟩ := Option.map_eq_some_iff.1 h.2
    exact .out _ o
  | recv c =>
    simp only [callback, Option.ite_none_right_eq_some] at h
    obtain ⟨-, h⟩ := h
    unfold afterRecv at h
    split at h <;> cases h
    exact .out _ _
  | recvError =>
    simp only [callback, Option.ite_none_right_eq_some] at h
    obtain ⟨-, h⟩ := h
    unfold afterRecvError at h
    split at h
    · next hconn hdata =>
      cases h
      rw [hconn]
      exact .recvError hconn hdata
    · cases h
  | closed =>
    simp only [callback, Option.ite_none_right_eq_some] at h
    obtain ⟨-, h⟩ := h
    unfold closeCallback at h
    simp only at h
    split at h
    · next hconn hdata =>
      cases h
      exact .closed hconn hdata
    · next hconn =>
      cases h
      exact .closedSilently hconn
    · cases h
  | timer r =>
    simp only [callback, Option.ite_none_right_eq_some, Option.some.injEq] at h
    obtain ⟨-, rfl⟩ := h
    exact step_of_timer r
  | connected status readStart =>
    simp only [callback, Option.ite_none_right_eq_some] at h
    exact step_of_connected h.2

/-- The user has not asked for the close as long as no event does. -/
theorem flag_of_step (hflag : s.isUserAskForClosed = false) (he : e ≠ .userClose)
    (hstep : s.step e = some t) : t.isUserAskForClosed = false := by
  cases step_cases hstep with
  | userClose o => exact absurd rfl he
  | closeOpen o hclose | closeRest o hclose =>
    rw [hflag] at hclose
    cases hclose
  | _ => exact hflag

/-- The wish to close is never taken back. -/
theorem flag_mono (hstep : s.step e = some t) :
    t.isUserAskForClosed = s.isUserAskForClosed ∨ t.isUserAskForClosed = true := by
  cases step_cases hstep with
  | userClose o => exact .inr rfl
  | _ => exact .inl rfl

/-- The socket of the connection: it stays, it is closed, or the timer opens the next one. -/
theorem socket_of_step (hstep : s.step e = some t) :
    t.connectionEnd = s.connectionEnd ∧
        (t.tcphandle.socket = s.tcphandle.socket ∨ t.tcphandle.socket = none) ∨
      e = .timer .ok ∧ s.isReconnecting = true ∧ t.tcphandle.socket = some s.connectionEnd ∧
        t.connectionEnd = s.connectionEnd + 1 := by
  cases step_cases hstep with
  | attempt hreconnecting => exact .inr ⟨rfl, hreconnecting, rfl, rfl⟩
  | closeOpen =>
    refine .inl ⟨rfl, .inr ?_⟩
    show (s.tcphandle.uvClose true).socket = none
    cases s.tcphandle <;> rfl
  | refused readStart hconn hdata hstatus | connected readStart hconn hdata hreconnecting
  | reconnected readStart hconn hdata hreconnecting =>
    exact .inl ⟨rfl, .inl (by rw [hconn]; rfl)⟩
  | recvError | closed | closedSilently | attemptFailed | cancelled => exact .inl ⟨rfl, .inr rfl⟩
  | out | received | faulted | userClose | closeRest => exact .inl ⟨rfl, .inl rfl⟩

end CTCPClient

end SimpleUv
