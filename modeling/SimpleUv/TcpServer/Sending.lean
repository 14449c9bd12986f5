import SimpleUv.TcpClient.Outbound
import SimpleUv.TcpServer.Closing

/-!
# Sending from the server, and the mutex

`SendingServer` adds what the server needs to send: its list of write parameters, and the writes in
flight, each with the context it was given. `broadcast` holds `m_mutexClients` while it goes through the
map; `sendinl` does not touch the mutex.

Every operation gives the mutex back except `closeinl` (`released_iff`). After a close the close
callback of an accepted connection waits for ever, and its client stays in the map
(`CTCPServer.Stopped.step`).
-/

namespace SimpleUv

open Foundations

/-- The server with its write requests. -/
structure SendingServer (B : Build) where
  server : CTCPServer B
  listWriteParam : List WriteParam
  inflight : List (ℕ × WriteParam)

/-- `sendinl` copies the data into a write parameter, whose buffer grows when it is too small. -/
def WriteParam.fill (B : Build) (p : WriteParam) (senddata : List Byte) : Option WriteParam := do
  let p := if p.truelen < senddata.length then
      { p with base := ((UvBuf.mk p.base).realloc B senddata.length).base, truelen := senddata.length }
    else p
  let buf ← (UvBuf.mk p.base).store 0 senddata
  some { p with base := buf.base, len := senddata.length }

namespace SendingServer

variable {B : Build} (s : SendingServer B)

/-- The server when `Start` returns. -/
def start (B : Build) : SendingServer B := ⟨.start B, [], []⟩

/-- The write parameter for the next send: the front of the list, or a new one. -/
def nextWriteParam : WriteParam × List WriteParam :=
  match s.listWriteParam with
  | [] => (allocWriteParam B, [])
  | p :: rest => (p, rest)

/-- `sendinl` to a context, and whether it succeeds. `res` is the result of `uv_write`. -/
def sendinl (senddata : List Byte) (a : ℕ) (res : ℤ) : Option (SendingServer B × Bool) :=
  if senddata = [] then some (s, true)
  else do
    let (p, rest) := s.nextWriteParam
    let p ← p.fill B senddata
    let _ ← s.server.ctxs a
    if res ≠ 0 then some ({ s with listWriteParam := rest ++ [p] }, false)
    else some ({ s with listWriteParam := rest, inflight := s.inflight ++ [(a, p)] }, true)

/-- The loop of `broadcast`. A client whose id is excluded is passed over once. -/
def sendAll (senddata : List Byte) (res : ℕ → ℤ) :
    List (ℤ × ℕ) → List ℤ → SendingServer B → Option (SendingServer B)
  | [], _, s => some s
  | (id, c) :: clients, excludeid, s =>
    if id ∈ excludeid then sendAll senddata res clients (excludeid.erase id) s
    else do
      let client ← s.server.clients c
      let (s, _) ← s.sendinl senddata client.clientHandle (res client.clientHandle)
      sendAll senddata res clients excludeid s

/-- Lock or unlock `m_mutexClients`. -/
def setMutex (locked : Bool) : SendingServer B :=
  { s with server := { s.server with mutexClients := locked } }

/-- `broadcast`. `res` are the results of `uv_write` on the contexts. -/
def broadcast (senddata : List Byte) (excludeid : List ℤ) (res : ℕ → ℤ) :
    Option (SendingServer B) :=
  if senddata = [] then some s
  else if s.server.mutexClients then none
  else do
    let t ← sendAll senddata res s.server.mapClientsList excludeid (s.setMutex true)
    some (t.setMutex false)

/-- `AfterSend` of a write in flight. -/
def afterSend (i : ℕ) : Option (SendingServer B) := do
  let (a, p) ← s.inflight[i]?
  let _ ← s.server.ctxs a
  let s := { s with inflight := s.inflight.eraseIdx i }
  if maxListSize < s.listWriteParam.length then some s
  else some { s with listWriteParam := s.listWriteParam ++ [p] }

/-- The callbacks of the server, a call of `broadcast`, and the completion of a write. -/
inductive Event (B : Build)
  | callback (e : CTCPServer.Event B)
  | broadcast (senddata : List Byte) (excludeid : List ℤ) (res : ℕ → ℤ)
  | afterSend (i : ℕ) (status : ℤ)

/-- What an event does. -/
def step (s : SendingServer B) : Event B → Option (SendingServer B)
  | .callback e => (s.server.step e).map fun server => { s with server := server }
  | .broadcast senddata excludeid res =>
    if s.server.crashed then none else s.broadcast senddata excludeid res
  | .afterSend i _ => if s.server.crashed then none else s.afterSend i

end SendingServer

/-! ## The mutex -/

namespace CTCPServer

variable {B : Build} {s t : CTCPServer B} {e : Event B}

theorem takeCtx_mutex {u : Uninit} {a : ℕ} {ctx : TcpClientCtx}
    (h : s.takeCtx u = some (t, a, ctx)) :
    t.mutexClients = s.mutexClients ∧ t.listening = s.listening := by
  rcases takeCtx_cases h with ⟨-, rfl, -⟩ | ⟨rest, ctx₀, -, -, rfl, -⟩ <;> exact ⟨rfl, rfl⟩

theorem subClientClosed_mutex {clientid : ℤ} (h : s.subClientClosed clientid = some t) :
    t.mutexClients = s.mutexClients ∧ t.listening = s.listening := by
  unfold subClientClosed at h
  split_ifs at h
  split at h
  · cases h
    exact ⟨rfl, rfl⟩
  · obtain ⟨client, -, h⟩ := Option.bind_eq_some_iff.1 h
    obtain ⟨s₁, hs₁, h⟩ := Option.bind_eq_some_iff.1 h
    split_ifs at h
    cases h
    rcases recycle_cases hs₁ with rfl | ⟨-, rfl⟩ <;> exact ⟨rfl, rfl⟩

/-- A step other than a close gives the mutex back, and the server listens on. -/
theorem mutex_of_step (h : s.step e = some t)
    (hclose : e = .async → s.isUserAskForClosed = true → s.isClosed = true) :
    t.mutexClients = s.mutexClients ∧ t.listening = s.listening := by
  cases step_cases h with
  | accept hlistening htake haccept =>
    obtain ⟨hmutex, hlisten⟩ := takeCtx_mutex htake
    cases haccept <;> exact ⟨hmutex, hlisten⟩
  | recvError hctx hconn hparent hclient => exact closeClient_mutex hclient
  | clientClosed hctx hstage hdata hclient hhandle hclosed =>
    have hmutex := subClientClosed_mutex hclosed
    exact hmutex
  | recycled hctx hstage hrecycle =>
    rcases recycle_cases hrecycle with rfl | ⟨-, rfl⟩ <;> exact ⟨rfl, rfl⟩
  | closeinl hflag hclosed =>
    rw [hclose rfl hflag] at hclosed
    cases hclosed
  | same | received | faulted | strangerClosed | serverClosed | userClose => exact ⟨rfl, rfl⟩

/-- `closeinl` leaves the mutex locked. -/
theorem mutex_of_closeinl (hflag : s.isUserAskForClosed = true) (hclosed : s.isClosed = false)
    (h : s.step .async = some t) : t.mutexClients = true := by
  unfold step at h
  split_ifs at h
  replace h : s.asyncCloseCb = some t := h
  rw [asyncCloseCb, if_pos hflag, closeinl, if_neg (by rw [hclosed]; exact Bool.false_ne_true)] at h
  split_ifs at h
  obtain ⟨s₁, hs₁, h⟩ := Option.bind_eq_some_iff.1 h
  cases h
  have hmutex := closeClients_mutex hs₁
  exact hmutex

end CTCPServer

namespace SendingServer

variable {B : Build} {s t : SendingServer B} {e : Event B}

/-- No operation leaves the mutex locked, and when the server has been closed and all close callbacks
have run, the map of clients is empty. -/
def Released (s : SendingServer B) : Prop :=
  s.server.mutexClients = false ∧
    (s.server.listening = false →
      (∀ a ctx, s.server.ctxs a = some ctx → ∀ cb, ctx.tcphandle ≠ .closing cb) →
        s.server.mapClientsList = [])

/-- `closeinl` does not run. -/
def Kept (s : SendingServer B) (e : Event B) : Prop :=
  e = .callback .async → s.server.isUserAskForClosed = true → s.server.isClosed = true

theorem sendinl_server {senddata : List Byte} {a : ℕ} {res : ℤ} {b : Bool}
    (h : s.sendinl senddata a res = some (t, b)) : t.server = s.server := by
  unfold sendinl at h
  split_ifs at h
  · cases h
    rfl
  all_goals
    obtain ⟨p, -, h⟩ := Option.bind_eq_some_iff.1 h
    obtain ⟨ctx, -, h⟩ := Option.bind_eq_some_iff.1 h
    cases h
    rfl

theorem sendAll_server {senddata : List Byte} {res : ℕ → ℤ} {clients : List (ℤ × ℕ)}
    {excludeid : List ℤ} (h : sendAll senddata res clients excludeid s = some t) :
    t.server = s.server := by
  induction clients generalizing s excludeid with
  | nil =>
    cases h
    rfl
  | cons entry clients ih =>
    unfold sendAll at h
    split_ifs at h
    · exact ih h
    · obtain ⟨client, -, h⟩ := Option.bind_eq_some_iff.1 h
      obtain ⟨⟨s₁, b⟩, hs₁, h⟩ := Option.bind_eq_some_iff.1 h
      exact (ih h).trans (sendinl_server hs₁)

/-- `broadcast` and `AfterSend` leave the server as it is. -/
theorem broadcast_server {senddata : List Byte} {excludeid : List ℤ} {res : ℕ → ℤ}
    (h : s.broadcast senddata excludeid res = some t) : t.server = s.server := by
  unfold broadcast at h
  split_ifs at h with hdata hmutex
  · cases h
    rfl
  · obtain ⟨s₁, hs₁, h⟩ := Option.bind_eq_some_iff.1 h
    cases h
    have hserver := sendAll_server hs₁
    show { s₁.server with mutexClients := false } = s.server
    rw [hserver, ← Bool.eq_false_iff.2 hmutex]
    rfl

theorem afterSend_server {i : ℕ} (h : s.afterSend i = some t) : t.server = s.server := by
  obtain ⟨⟨a, p⟩, -, h⟩ := Option.bind_eq_some_iff.1 h
  obtain ⟨ctx, -, h⟩ := Option.bind_eq_some_iff.1 h
  simp only at h
  split_ifs at h <;> cases h <;> rfl

/-- An operation other than a close gives the mutex back. -/
theorem mutex_of_step (h : s.step e = some t) (hkept : s.Kept e) :
    t.server.mutexClients = s.server.mutexClients ∧ t.server.listening = s.server.listening := by
  cases e with
  | callback e =>
    obtain ⟨server, hserver, rfl⟩ := Option.map_eq_some_iff.1 h
    exact CTCPServer.mutex_of_step hserver fun he => hkept (by rw [he])
  | broadcast senddata excludeid res =>
    simp only [step, Option.ite_none_left_eq_some] at h
    rw [broadcast_server h.2]
    exact ⟨rfl, rfl⟩
  | afterSend i status =>
    simp only [step, Option.ite_none_left_eq_some] at h
    rw [afterSend_server h.2]
    exact ⟨rfl, rfl⟩

/-- **Every operation gives the mutex back** exactly as long as `closeinl` does not run. -/
theorem released_iff (B : Build) (es : List (Event B)) :
    Always step Released (start B) es ↔ Along step Kept (start B) es := by
  refine always_iff_along (A := fun _ => True)
    (I := fun s => s.server.mutexClients = false ∧ s.server.listening = true) ?_ ?_ ?_ ⟨rfl, rfl⟩
    fun _ _ => trivial
  · intro s e t hs _ hkept hstep
    obtain ⟨hmutex, hlistening⟩ := mutex_of_step hstep hkept
    exact ⟨hmutex.trans hs.1, hlistening.trans hs.2⟩
  · intro s e t _ _ hkept hstep hreleased
    unfold Kept at hkept
    push Not at hkept
    obtain ⟨rfl, hflag, hclosed⟩ := hkept
    obtain ⟨server, hserver, rfl⟩ := Option.map_eq_some_iff.1 hstep
    have hmutex := CTCPServer.mutex_of_closeinl hflag (Bool.eq_false_iff.2 hclosed) hserver
    exact Bool.noConfusion (hmutex.symm.trans hreleased.1)
  · intro s hs
    exact ⟨hs.1, fun hlistening => Bool.noConfusion (hlistening.symm.trans hs.2)⟩

/-- A connection is accepted, and the user closes the server. -/
def closeRun : List (Event zeroBuild) :=
  [.callback (.accept zeroUninit .ok), .callback .userClose, .callback .async]

/-- The mutex is locked, and the client never leaves the map. -/
theorem closeRun_locked : ¬ Always step Released (start zeroBuild) closeRun := by
  intro h
  exact Bool.noConfusion (h.last (t := _) rfl).1

end SendingServer

end SimpleUv
