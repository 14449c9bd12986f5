import SimpleUv.Foundations.Transition
import SimpleUv.PacketSync.Session
import SimpleUv.TcpClient.Outbound

/-!
# The client

`CTCPClient` from the first request to connect on, as a state that user threads and the callbacks of
libuv act on (`step`). A thread in `Send` takes its steps at any time; a callback starts only while
the loop thread is idle, and one that calls `send_inl` goes on with `drain` and `uvWrite` until the
ring buffer is empty.

The handle that carries the connection is `m_handleClient->tcphandle`. At first it is a copy of a
handle of the loop, which is not `registered` there; `ReconnectTimer` initialises it in place. An
attempt to connect has a number from the moment its socket exists, and `uv_write` accepts data as long
as the handle has a socket. The callbacks of the copied handle come as for any other one. So it is with libuv
on Windows; on unix the copy has a stale watcher queue, and the first attempt is never completed. The
assertions of libuv are off, so a timer can be started after it was closed. `m_bIsClosed` is left out: `init`
clears it, and nothing sets it again. A step is `none` when the event cannot happen or the client stops
there, at a data pointer of the wrong type. When the parser faults the client has `crashed`.
-/

namespace SimpleUv

open Foundations

/-- The stages of the handle of the connection. `refused` is an attempt that has failed, `connected`
says whether the handle is reading; a handle is `closing` with a request to connect still to be
cancelled or without, and with a callback or without. -/
inductive ClientTcp
  | closed
  | connecting (conn : ℕ)
  | refused (conn : ℕ)
  | connected (conn : ℕ) (reading : Bool)
  | closing (connect callback : Bool)
  deriving DecidableEq, Repr

/-- The connection whose socket the handle has. -/
def ClientTcp.socket : ClientTcp → Option ℕ
  | .connecting n | .refused n | .connected n _ => some n
  | _ => none

/-- The handle after `uv_close`. -/
def ClientTcp.uvClose (h : ClientTcp) (callback : Bool) : ClientTcp :=
  match h with
  | .connecting _ => .closing true callback
  | _ => .closing false callback

/-- `uv_is_closing`. -/
def ClientTcp.isClosing : ClientTcp → Bool
  | .closed | .closing _ _ => true
  | _ => false

/-- What the data pointer of that handle points to. -/
inductive ClientData
  | ctx
  | client
  deriving DecidableEq, Repr

/-- The results of the calls in `ReconnectTimer`. -/
structure ReconnectResults where
  tcpInit : ℤ
  ipAddr : ℤ
  tcpConnect : ℤ

/-- All calls succeed. -/
def ReconnectResults.ok : ReconnectResults := ⟨0, 0, 0⟩

/-- The client. `closes` counts the calls of `uv_close` on the handle since it was last initialised,
`loopCloses` those on each of the two async handles. The other handles of the loop are in `ClientLoop`. -/
structure CTCPClient (B : Build) where
  out : Outbound B
  isUserAskForClosed : Bool
  loopCloses : ℕ
  tcphandle : ClientTcp
  registered : Bool
  closes : ℕ
  data : ClientData
  isReconnecting : Bool
  timerReconnet : Bool
  packet : CPacketSync
  connections : ℕ → Connection B
  connectionEnd : ℕ
  crashed : Bool

namespace CTCPClient

variable {B : Build} (s : CTCPClient B)

/-- The client when `Connect` has issued its request. -/
def start (B : Build) (memory : List.Vector Byte bufferSize) (u : Uninit) : CTCPClient B where
  out := .start memory
  isUserAskForClosed := false
  loopCloses := 0
  tcphandle := .connecting 0
  registered := false
  closes := 0
  data := .ctx
  isReconnecting := false
  timerReconnet := false
  packet := .fresh u serverPacketHead serverPacketTail
  connections _ := ⟨[], []⟩
  connectionEnd := 1
  crashed := false

/-- The rest of `AfterRecv`, after its call of `send_inl`. -/
def parse (c : Chunk B) : Option (CTCPClient B) :=
  match s.tcphandle with
  | .connected n _ =>
    let conn := s.connections n
    if c.bytes = [] then some s
    else
      match s.packet.recvdata B c.bytes with
      | .done p out =>
        some { s with
          packet := p
          connections := Function.update s.connections n
            ⟨conn.received ++ [c], conn.parsed ++ out.map Delivery.packet⟩ }
      | _ =>
        some { s with
          connections := Function.update s.connections n ⟨conn.received ++ [c], conn.parsed⟩
          crashed := true }
  | _ => none

/-- The next locked section of `send_inl`. With an empty ring buffer it returns to its caller. -/
def drain : Option (CTCPClient B) :=
  match s.out.loop with
  | .sendInl recv =>
    if s.out.buferWrite.empty then
      let s := { s with out := { s.out with loop := .idle } }
      match recv with
      | none => some s
      | some c => s.parse c
    else do
      let out ← s.out.takeBlock recv
      some { s with out := out }
  | _ => none

/-- The next `uv_write` of `send_inl`, which fails when the handle has no socket. -/
def uvWrite (res : ℤ) : Option (CTCPClient B) :=
  if res = 0 ∧ s.tcphandle.socket = none then none
  else (s.out.uvWrite (s.tcphandle.socket.getD 0) res).map fun out => { s with out := out }

/-- `StopReconnect`. -/
def stopReconnect : CTCPClient B :=
  { s with isReconnecting := false, data := .ctx, timerReconnet := false }

/-- `CloseWalkCB` for the handle of the connection. -/
def closeWalk : CTCPClient B :=
  if s.tcphandle.isClosing then s
  else { s with tcphandle := s.tcphandle.uvClose true, closes := s.closes + 1 }

/-- `closeinl`, as far as the connection and the async handles go (`ClientLoop.Inv.step_client_iff`): `uv_walk`
visits the handle of the connection only when it is registered. -/
def closeinl : CTCPClient B :=
  let s := s.stopReconnect
  let s := if s.loopCloses = 0 then { s with loopCloses := 1 } else s
  if s.registered then s.closeWalk else s

/-- `AsyncCloseCB`. -/
def asyncCloseCb : CTCPClient B :=
  let s := { s with out := { s.out with asyncPending := false } }
  if s.isUserAskForClosed then s.closeinl
  else { s with out := { s.out with loop := .sendInl none } }

/-- `AfterRecv` with data, or with nothing: it calls `send_inl` first. -/
def afterRecv (c : Chunk B) : Option (CTCPClient B) :=
  match s.tcphandle, s.data with
  | .connected _ true, .ctx => some { s with out := { s.out with loop := .sendInl (some c) } }
  | _, _ => none

/-- `AfterRecv` with an error or the end of the stream: `StartReconnect` and `uv_close`. -/
def afterRecvError : Option (CTCPClient B) :=
  match s.tcphandle, s.data with
  | .connected _ true, .ctx =>
    some { s with
      isReconnecting := true
      data := .client
      tcphandle := s.tcphandle.uvClose true
      closes := s.closes + 1 }
  | _, _ => none

/-- The handle is closed. `AfterClientClose` starts the timer while the client is reconnecting. -/
def closeCallback : Option (CTCPClient B) :=
  let t := { s with tcphandle := .closed, registered := false }
  match s.tcphandle, s.data with
  | .closing false true, .client =>
    some { t with timerReconnet := s.timerReconnet || s.isReconnecting }
  | .closing false false, _ => some t
  | _, _ => none

/-- `ReconnectTimer`. An attempt that fails restarts the timer. -/
def reconnectTimer (r : ReconnectResults) : CTCPClient B :=
  if s.isReconnecting then
    if r.tcpInit ≠ 0 then s
    else
      let s := { s with data := .ctx, registered := true, closes := 0 }
      if r.ipAddr ≠ 0 ∨ r.tcpConnect ≠ 0 then
        { s with tcphandle := .closing false false, closes := 1 }
      else { s with
        tcphandle := .connecting s.connectionEnd
        connectionEnd := s.connectionEnd + 1 }
  else s

/-- `AfterConnect`. The status is an error when the handle is closing. -/
def afterConnect (status readStart : ℤ) : Option (CTCPClient B) :=
  match s.tcphandle, s.data with
  | .connecting n, .ctx =>
    if status ≠ 0 then
      some { s with
        tcphandle := .refused n
        timerReconnet := s.timerReconnet || s.isReconnecting }
    else
      let s := { s with tcphandle := .connected n (readStart = 0) }
      if s.isReconnecting then some s.stopReconnect else some s
  | .closing true callback, .ctx =>
    if status ≠ 0 then
      some { s with
        tcphandle := .closing false callback
        timerReconnet := s.timerReconnet || s.isReconnecting }
    else none
  | _, _ => none

/-- What user threads do (a thread calls `Send`, takes its next step in it, or calls `Close`), and
what the loop thread does: the async callback, the steps of `send_inl`, and the callbacks of writes,
of reads, of the close of the handle, of the timer and of the attempt to connect. -/
inductive Event (B : Build)
  | call (t : ℕ) (data : Chunk B)
  | send (t : ℕ)
  | userClose
  | async
  | drain
  | uvWrite (res : ℤ)
  | afterSend (i : ℕ) (status : ℤ)
  | recv (c : Chunk B)
  | recvError
  | closed
  | timer (r : ReconnectResults)
  | connected (status readStart : ℤ)

/-- Whether the loop thread can start a callback. -/
def Idle : Prop := s.out.loop matches .idle

instance : Decidable s.Idle := by
  unfold Idle
  infer_instance

/-- What an event does. -/
def callback (s : CTCPClient B) : Event B → Option (CTCPClient B)
  | .call t data => (s.out.call t data).map fun out => { s with out := out }
  | .send t => (s.out.sendStep s.isUserAskForClosed t).map fun out => { s with out := out }
  | .userClose => some { s with
      isUserAskForClosed := true
      out := { s.out with asyncPending := true } }
  | .async =>
    if s.Idle ∧ s.out.asyncPending ∧ s.loopCloses = 0 then some s.asyncCloseCb else none
  | .drain => s.drain
  | .uvWrite res => s.uvWrite res
  | .afterSend i status =>
    if s.Idle then (s.out.afterSend i status).map fun out => { s with out := out } else none
  | .recv c => if s.Idle ∧ c.bytes.length ≤ bufferSize then s.afterRecv c else none
  | .recvError => if s.Idle then s.afterRecvError else none
  | .closed => if s.Idle then s.closeCallback else none
  | .timer r => if s.Idle ∧ s.timerReconnet then some (s.reconnectTimer r) else none
  | .connected status readStart => if s.Idle then s.afterConnect status readStart else none

/-- The next event, unless the client has crashed. -/
def step (s : CTCPClient B) (e : Event B) : Option (CTCPClient B) :=
  if s.crashed then none else s.callback e

/-! ## What a step does to the outgoing side -/

/-- The outgoing side after an event. -/
def OutEffect (s : CTCPClient B) : Event B → Outbound B → Prop
  | .call t data, o => s.out.call t data = some o
  | .send t, o => s.out.sendStep s.isUserAskForClosed t = some o
  | .userClose, o => o = { s.out with asyncPending := true }
  | .async, o => s.out.loop = .idle ∧ s.out.asyncPending = true ∧
      (s.isUserAskForClosed = true ∧ o = { s.out with asyncPending := false, loop := .idle } ∨
        s.isUserAskForClosed = false ∧
          o = { s.out with asyncPending := false, loop := .sendInl none })
  | .drain, o => ∃ recv, s.out.loop = .sendInl recv ∧
      (s.out.buferWrite.empty = true ∧ o = { s.out with loop := .idle } ∨
        s.out.buferWrite.empty = false ∧ s.out.takeBlock recv = some o)
  | .uvWrite res, o => ∃ conn, s.out.uvWrite conn res = some o ∧
      (s.tcphandle.socket = some conn ∨ s.tcphandle.socket = none ∧ res ≠ 0)
  | .afterSend i status, o => s.out.loop = .idle ∧ s.out.afterSend i status = some o
  | .recv c, o => s.out.loop = .idle ∧ o = { s.out with loop := .sendInl (some c) }
  | .recvError, o | .closed, o | .timer _, o | .connected _ _, o => s.out.loop = .idle ∧ o = s.out

variable {s} {t : CTCPClient B} {e : Event B}

theorem idle_iff : s.Idle ↔ s.out.loop = .idle := by
  unfold Idle
  cases s.out.loop <;> simp

theorem parse_out {c : Chunk B} (h : s.parse c = some t) : t.out = s.out := by
  unfold parse at h
  split at h
  · simp only at h
    split_ifs at h
    · cases h
      rfl
    · split at h <;> cases h <;> rfl
  · cases h

theorem closeinl_out : s.closeinl.out = s.out := by
  unfold closeinl closeWalk stopReconnect
  simp only
  split_ifs <;> rfl

/-- **What a step does to the outgoing side.** -/
theorem step_out (h : s.step e = some t) : OutEffect s e t.out := by
  unfold step at h
  split_ifs at h
  cases e with
  | call t data =>
    obtain ⟨o, ho, rfl⟩ := Option.map_eq_some_iff.1 h
    exact ho
  | send t =>
    obtain ⟨o, ho, rfl⟩ := Option.map_eq_some_iff.1 h
    exact ho
  | userClose =>
    cases h
    rfl
  | async =>
    simp only [callback, Option.ite_none_right_eq_some, Option.some.injEq] at h
    obtain ⟨⟨hidle, hpending, -⟩, rfl⟩ := h
    have hloop := idle_iff.1 hidle
    refine ⟨hloop, hpending, ?_⟩
    unfold asyncCloseCb
    cases hflag : s.isUserAskForClosed with
    | true =>
      refine .inl ⟨rfl, ?_⟩
      simp only [if_true, closeinl_out, ← hloop]
    | false => exact .inr ⟨rfl, rfl⟩
  | drain =>
    simp only [callback, drain] at h
    split at h
    · next recv hloop =>
      refine ⟨recv, hloop, ?_⟩
      split_ifs at h with hempty
      · refine .inl ⟨hempty, ?_⟩
        split at h
        · cases h
          rfl
        · exact parse_out h
      · obtain ⟨o, ho, h⟩ := Option.bind_eq_some_iff.1 h
        cases h
        exact .inr ⟨Bool.eq_false_iff.2 hempty, ho⟩
    · cases h
  | uvWrite res =>
    simp only [callback, uvWrite, Option.ite_none_left_eq_some] at h
    obtain ⟨hres, h⟩ := h
    obtain ⟨o, ho, rfl⟩ := Option.map_eq_some_iff.1 h
    refine ⟨_, ho, ?_⟩
    cases hsock : s.tcphandle.socket with
    | none => exact .inr ⟨rfl, fun h₀ => hres ⟨h₀, hsock⟩⟩
    | some n => exact .inl rfl
  | afterSend i status =>
    simp only [callback, Option.ite_none_right_eq_some] at h
    obtain ⟨hidle, h⟩ := h
    obtain ⟨o, ho, rfl⟩ := Option.map_eq_some_iff.1 h
    exact ⟨idle_iff.1 hidle, ho⟩
  | recv c =>
    simp only [callback, Option.ite_none_right_eq_some] at h
    obtain ⟨⟨hidle, -⟩, h⟩ := h
    unfold afterRecv at h
    split at h <;> cases h
    exact ⟨idle_iff.1 hidle, rfl⟩
  | recvError =>
    simp only [callback, Option.ite_none_right_eq_some] at h
    obtain ⟨hidle, h⟩ := h
    unfold afterRecvError at h
    split at h <;> cases h
    exact ⟨idle_iff.1 hidle, rfl⟩
  | closed =>
    simp only [callback, Option.ite_none_right_eq_some] at h
    obtain ⟨hidle, h⟩ := h
    unfold closeCallback at h
    simp only at h
    split at h <;> cases h <;> exact ⟨idle_iff.1 hidle, rfl⟩
  | timer r =>
    simp only [callback, Option.ite_none_right_eq_some, Option.some.injEq] at h
    obtain ⟨⟨hidle, -⟩, rfl⟩ := h
    refine ⟨idle_iff.1 hidle, ?_⟩
    unfold reconnectTimer
    split_ifs <;> rfl
  | connected status readStart =>
    simp only [callback, Option.ite_none_right_eq_some] at h
    obtain ⟨hidle, h⟩ := h
    refine ⟨idle_iff.1 hidle, ?_⟩
    unfold afterConnect at h
    split at h
    · simp only at h
      split_ifs at h <;> cases h <;> rfl
    · split_ifs at h
      cases h
      rfl
    · cases h

/-- The invariant of the outgoing side is kept by every event. -/
theorem step_inv (h : s.step e = some t) (hs : s.out.Inv) : t.out.Inv := by
  have hout := step_out h
  cases e with
  | call t data => exact hs.call hout
  | send t => exact hs.sendStep hout
  | userClose => exact hout ▸ hs.setAsync true
  | async =>
    obtain ⟨-, -, ⟨-, hout⟩ | ⟨-, hout⟩⟩ := hout
    · exact hout ▸ hs.frame false fun p r => by simp
    · exact hout ▸ hs.frame false fun p r => by simp
  | drain =>
    obtain ⟨recv, -, ⟨-, hout⟩ | ⟨-, hout⟩⟩ := hout
    · exact hout ▸ hs.frame s.out.asyncPending fun p r => by simp
    · exact hs.takeBlock_inv hout
  | uvWrite res =>
    obtain ⟨conn, hc, -⟩ := hout
    exact hs.uvWrite hc
  | afterSend i status => exact hs.afterSend hout.2
  | recv c => exact hout.2 ▸ hs.frame s.out.asyncPending fun p r => by simp
  | recvError | closed | timer r | connected status readStart => exact hout.2 ▸ hs

/-! ## Disconnection and reconnection -/

theorem step_eq (hcrashed : s.crashed = false) (e : Event B) : s.step e = s.callback e :=
  if_neg (by rw [hcrashed]; exact Bool.false_ne_true)

theorem step_recvError (hcrashed : s.crashed = false) (hidle : s.out.loop = .idle) :
    s.step .recvError = s.afterRecvError := by
  rw [step_eq hcrashed, callback, if_pos (idle_iff.2 hidle)]

theorem step_closed (hcrashed : s.crashed = false) (hidle : s.out.loop = .idle) :
    s.step .closed = s.closeCallback := by
  rw [step_eq hcrashed, callback, if_pos (idle_iff.2 hidle)]

theorem step_timer (hcrashed : s.crashed = false) (hidle : s.out.loop = .idle)
    (htimer : s.timerReconnet = true) (r : ReconnectResults) :
    s.step (.timer r) = some (s.reconnectTimer r) := by
  rw [step_eq hcrashed, callback, if_pos ⟨idle_iff.2 hidle, htimer⟩]

theorem step_connected (hcrashed : s.crashed = false) (hidle : s.out.loop = .idle)
    (status readStart : ℤ) :
    s.step (.connected status readStart) = s.afterConnect status readStart := by
  rw [step_eq hcrashed, callback, if_pos (idle_iff.2 hidle)]

/-- The server ends the connection, and the handle is closed. -/
theorem exec_disconnect {n : ℕ} (hcrashed : s.crashed = false) (hidle : s.out.loop = .idle)
    (hconn : s.tcphandle = .connected n true) (hdata : s.data = .ctx) :
    exec step s [.recvError, .closed] = some { s with
      tcphandle := .closed, registered := false, closes := s.closes + 1, data := .client,
      isReconnecting := true, timerReconnet := true } := by
  have hrecv : s.step .recvError = some { s with
      isReconnecting := true, data := .client, tcphandle := .closing false true,
      closes := s.closes + 1 } := by
    rw [step_recvError hcrashed hidle]
    simp only [afterRecvError, hconn, hdata, ClientTcp.uvClose]
  rw [exec_cons hrecv, exec, step_closed (by exact hcrashed) (by exact hidle)]
  simp only [closeCallback, Bool.or_true, Option.bind_some, exec_nil]

/-- The timer runs, and the next attempt succeeds. -/
theorem exec_reconnect (hcrashed : s.crashed = false) (hidle : s.out.loop = .idle)
    (hreconnecting : s.isReconnecting = true) (htimer : s.timerReconnet = true) :
    exec step s [.timer .ok, .connected 0 0] = some { s with
      tcphandle := .connected s.connectionEnd true, registered := true, closes := 0, data := .ctx,
      isReconnecting := false, timerReconnet := false, connectionEnd := s.connectionEnd + 1 } := by
  have htick : s.step (.timer .ok) = some { s with
      data := .ctx, registered := true, closes := 0, tcphandle := .connecting s.connectionEnd,
      connectionEnd := s.connectionEnd + 1 } := by
    rw [step_timer hcrashed hidle htimer]
    simp only [reconnectTimer, ReconnectResults.ok, hreconnecting, if_true, ne_eq,
      not_true_eq_false, or_self, if_false]
  rw [exec_cons htick, exec, step_connected (by exact hcrashed) (by exact hidle)]
  simp only [afterConnect, stopReconnect, hreconnecting, if_true, ne_eq, not_true_eq_false, if_false,
    decide_true, Option.bind_some, exec_nil]

/-- The server ends the connection, and the next one begins. -/
theorem exec_nextConnection {n : ℕ} (hcrashed : s.crashed = false) (hidle : s.out.loop = .idle)
    (hconn : s.tcphandle = .connected n true) (hdata : s.data = .ctx) :
    exec step s ([.recvError, .closed] ++ [.timer .ok, .connected 0 0]) = some { s with
      tcphandle := .connected s.connectionEnd true, registered := true, closes := 0, data := .ctx,
      isReconnecting := false, timerReconnet := false, connectionEnd := s.connectionEnd + 1 } := by
  rw [exec_append_of_exec (exec_disconnect hcrashed hidle hconn hdata),
    exec_reconnect (by exact hcrashed) (by exact hidle) rfl rfl]

end CTCPClient

end SimpleUv
