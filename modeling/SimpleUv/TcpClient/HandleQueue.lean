import SimpleUv.Libuv.Queue
import SimpleUv.TcpClient.Lifecycle

/-!
# The handles of the loop

The client opens five handles in its loop, and `closeinl` closes those that `uv_walk` finds in the handle
queue. `init` copies `m_tcpHandle` into the handle of the connection with its links, so the first handle of
the connection has links into the queue without being part of it. When it is closed, `QUEUE_REMOVE` follows
these links, and whatever came into the queue behind them (`m_tcpHandle` itself, and the timer) is lost.

`ClientLoop` is the client with these links. Its steps are those of `CTCPClient` (`step_client_iff`), where the
walk over the queue is seen on the connection only; what it does to the other handles is in `shut_iff`.
-/

namespace SimpleUv

open Foundations Libuv

/-- The handles that the client opens: `m_asyncHandle`, `m_asyncHandleForRecvMsg`, `m_tcpHandle`,
`m_timerReconnet`, and the one of the connection, `m_handleClient->tcphandle`. -/
inductive LoopHandle
  | asyncHandle
  | asyncHandleForRecvMsg
  | tcpHandle
  | timerReconnet
  | tcphandle
  deriving DecidableEq

/-- The nodes of the handle queue: its head in the loop, the head that `uv_walk` has on its stack, the handles
that libuv opens in every loop, and those of the client. -/
inductive QueueNode
  | handleQueue
  | queue
  | internal (i : ℕ)
  | handle (h : LoopHandle)
  deriving DecidableEq

/-- The client with its handle queue. `closes` counts the calls of `uv_close` on the handles that the client
does not count itself, `finished` are those that are closed, and `closed` says that `closeinl` has run. -/
structure ClientLoop (B : Build) where
  client : CTCPClient B
  internals : ℕ
  links : Neighbours QueueNode
  closes : LoopHandle → ℕ
  finished : LoopHandle → Bool
  closed : Bool

/-- `uv__handle_init` puts a handle into the queue. -/
def handleInit (m : Neighbours QueueNode) (h : LoopHandle) : Neighbours QueueNode :=
  queueInsertTail m .handleQueue (.handle h)

/-- The links when `init` returns: those of a new loop, with the handles in the order in which they are
initialised. -/
def initLinks (internals : ℕ) (m : Neighbours QueueNode) : Neighbours QueueNode :=
  let m := queueInit m .handleQueue
  let m := (List.range internals).foldl (fun m i => queueInsertTail m .handleQueue (.internal i)) m
  let m := handleInit m .asyncHandle
  let m := handleInit m .asyncHandleForRecvMsg
  let m := handleInit m .tcpHandle
  -- The assignment of `m_tcpHandle` copies its links.
  let m := setNext m (.handle .tcphandle) (m.next (.handle .tcpHandle))
  let m := setPrev m (.handle .tcphandle) (m.prev (.handle .tcpHandle))
  handleInit m .timerReconnet

namespace ClientLoop

variable {B : Build} (s : ClientLoop B)

/-- The client when `Connect` has issued its request, with what the memory held before. -/
def start (B : Build) (internals : ℕ) (m : Neighbours QueueNode) (memory : List.Vector Byte bufferSize)
    (u : Uninit) : ClientLoop B where
  client := .start B memory u
  internals := internals
  links := initLinks internals m
  closes _ := 0
  finished _ := false
  closed := false

/-- The calls of `uv_close` on a handle since it was initialised. -/
def closesOf : LoopHandle → ℕ
  | .asyncHandle => s.client.loopCloses
  | .tcphandle => s.client.closes
  | h => s.closes h

/-- `uv_is_closing`. -/
def isClosing : LoopHandle → Bool
  | .tcphandle => s.client.tcphandle.isClosing
  | h => s.closesOf h ≠ 0

/-- `uv_close`, which stops a timer. -/
def uvClose : LoopHandle → ClientLoop B
  | .asyncHandle => { s with client := { s.client with loopCloses := s.client.loopCloses + 1 } }
  | .tcphandle => { s with client := { s.client with
      tcphandle := s.client.tcphandle.uvClose true, closes := s.client.closes + 1 } }
  | .timerReconnet => { s with
      client := { s.client with timerReconnet := false }
      closes := Function.update s.closes .timerReconnet (s.closes .timerReconnet + 1) }
  | h => { s with closes := Function.update s.closes h (s.closes h + 1) }

/-- `CloseWalkCB`. -/
def closeWalkCb (h : LoopHandle) : ClientLoop B := if s.isClosing h then s else s.uvClose h

/-- `uv_walk` calls it for the handles that are not internal to libuv. -/
def visit : QueueNode → ClientLoop B
  | .handle h => s.closeWalkCb h
  | _ => s

/-- The loop of `uv_walk`, with a bound on its turns. -/
def uvWalk : ℕ → ClientLoop B → Option (ClientLoop B)
  | 0, _ => none
  | fuel + 1, s =>
    if queueEmpty s.links .queue then some s
    else
      let q := queueHead s.links .queue
      let links := queueInsertTail (queueRemove s.links q) .handleQueue q
      uvWalk fuel (visit { s with links := links } q)

/-- `closeinl`. -/
def closeinl : Option (ClientLoop B) :=
  uvWalk (s.internals + 6) { s with
    client := s.client.stopReconnect
    links := queueMove s.links .handleQueue .queue
    closed := true }

/-- `AsyncCloseCB`. -/
def asyncCloseCb : Option (ClientLoop B) :=
  let s := { s with client := { s.client with out := { s.client.out with asyncPending := false } } }
  if s.client.isUserAskForClosed then s.closeinl
  else some { s with client := { s.client with out := { s.client.out with loop := .sendInl none } } }

/-- What a callback does to the links: `uv_tcp_init` in `ReconnectTimer`, and the removal of the handle of the
connection in front of its close callback. -/
def relink : CTCPClient.Event B → Neighbours QueueNode
  | .timer r =>
    if s.client.isReconnecting ∧ r.tcpInit = 0 then handleInit s.links .tcphandle else s.links
  | .closed => queueRemove s.links (.handle .tcphandle)
  | _ => s.links

/-- An event of the client, or the close of another handle, whose callback does nothing. -/
inductive Event (B : Build)
  | client (e : CTCPClient.Event B)
  | closed (h : LoopHandle)

/-- What an event does. -/
def step : Event B → Option (ClientLoop B)
  | .client .async =>
    if s.client.crashed = false ∧ s.client.Idle ∧ s.client.out.asyncPending ∧ s.client.loopCloses = 0 then
      s.asyncCloseCb
    else none
  | .client e => (s.client.step e).map fun client => { s with client := client, links := s.relink e }
  | .closed h =>
    if h ≠ .tcphandle ∧ s.isClosing h ∧ s.finished h = false then
      some { s with
        links := queueRemove s.links (.handle h)
        finished := Function.update s.finished h true }
    else none

/-- After `closeinl` every handle that the client has opened is closing or closed, by one `uv_close`, and the
timer is off for good. -/
def Shut (s : ClientLoop B) : Prop :=
  s.closed = true → (∀ h, s.isClosing h = true ∧ s.closesOf h = 1) ∧ s.client.isReconnecting = false ∧
    s.client.timerReconnet = false

/-- When `closeinl` runs, the handle that `init` copied has been passed to `uv_close`, and its close callback is
to come. -/
def FirstClosing (s : ClientLoop B) (e : Event B) : Prop :=
  e = .client .async → s.client.isUserAskForClosed = true → s.client.loopCloses = 0 →
    s.client.registered = false ∧ s.client.tcphandle = .closing false true

/-! ## The queue -/

/-- The handles that are always in the queue: those of libuv and the two async handles. -/
def firsts (internals : ℕ) : List QueueNode :=
  (List.range internals).map .internal ++ [.handle .asyncHandle] ++ [.handle .asyncHandleForRecvMsg]

theorem mem_firsts {internals : ℕ} {q : QueueNode} : q ∈ firsts internals ↔
    (∃ i < internals, .internal i = q) ∨ q = .handle .asyncHandle ∨ q = .handle .asyncHandleForRecvMsg := by
  simp [firsts]

theorem getLastD_firsts (internals : ℕ) (q : QueueNode) :
    (firsts internals).getLastD q = .handle .asyncHandleForRecvMsg := List.getLastD_concat

theorem firsts_ne_nil (internals : ℕ) : firsts internals ≠ [] := List.concat_ne_nil _ _

theorem circle_internals (internals : ℕ) (m : Neighbours QueueNode) :
    Neighbours.Circle ((List.range internals).foldl (fun m i => queueInsertTail m .handleQueue (.internal i))
      (queueInit m .handleQueue)) .handleQueue ((List.range internals).map .internal) := by
  induction internals with
  | zero => exact queueInit_circle m .handleQueue
  | succ n ih =>
    rw [List.range_succ, List.foldl_append, List.map_append]
    exact queueInsertTail_circle ih (by simp)

theorem circle_firsts (internals : ℕ) (m : Neighbours QueueNode) :
    Neighbours.Circle (handleInit (handleInit ((List.range internals).foldl
      (fun m i => queueInsertTail m .handleQueue (.internal i)) (queueInit m .handleQueue)) .asyncHandle)
      .asyncHandleForRecvMsg) .handleQueue (firsts internals) :=
  queueInsertTail_circle (queueInsertTail_circle (circle_internals internals m) (by simp)) (by simp)

/-- The rest of `init`, from `uv_tcp_init` on. -/
theorem copy_spec {internals : ℕ} {m : Neighbours QueueNode}
    (hm : m.Circle .handleQueue (firsts internals)) :
    let m₁ := handleInit m .tcpHandle
    let m₂ := setNext m₁ (.handle .tcphandle) (m₁.next (.handle .tcpHandle))
    let m₃ := setPrev m₂ (.handle .tcphandle) (m₂.prev (.handle .tcpHandle))
    let m₄ := handleInit m₃ .timerReconnet
    m₄.Onward .handleQueue (firsts internals ++ [.handle .tcpHandle] ++ [.handle .timerReconnet]) ∧
      m₄.prev (.handle .tcphandle) = .handle .asyncHandleForRecvMsg ∧
      m₄.next (.handle .tcphandle) = .handleQueue := by
  intro m₁ m₂ m₃ m₄
  obtain ⟨h₁, hprev, hnext⟩ := queueInsertTail_onward hm.onward (q := .handle .tcpHandle)
    (by simp [mem_firsts])
  rw [getLastD_firsts] at hprev
  have hother : ∀ x, x ≠ .handle .tcphandle → m₃.next x = m₁.next x ∧ m₃.prev x = m₁.prev x :=
    fun x hx => ⟨Function.update_of_ne hx .., Function.update_of_ne hx ..⟩
  have h₃ : m₃.Onward .handleQueue (firsts internals ++ [.handle .tcpHandle]) :=
    h₁.congr fun x hx => hother x fun hxc => by
      rw [hxc] at hx
      simp [mem_firsts] at hx
  obtain ⟨h₄, -, -⟩ := queueInsertTail_onward h₃ (q := .handle .timerReconnet) (by simp [mem_firsts])
  have hlast : m₃.prev .handleQueue = .handle .tcpHandle := h₃.last.trans List.getLastD_concat
  have hkeep := queueInsertTail_of_ne (m := m₃) (s := .handle .tcphandle) (q := .handle .timerReconnet)
    (h := .handleQueue) (by simp) (by simp) (by simp [hlast])
  have hprev₃ : m₃.prev (.handle .tcphandle) = m₁.prev (.handle .tcpHandle) := by
    simp [m₃, m₂, setPrev, setNext]
  have hnext₃ : m₃.next (.handle .tcphandle) = m₁.next (.handle .tcpHandle) := by
    simp [m₃, m₂, setPrev, setNext]
  exact ⟨h₄, hkeep.2.trans (hprev₃.trans hprev), hkeep.1.trans (hnext₃.trans hnext)⟩

/-- The links that `init` leaves. The handle of the connection is not in the queue, but it has links to the
handle in front of `m_tcpHandle` and to the head. -/
theorem initLinks_spec (internals : ℕ) (m : Neighbours QueueNode) :
    (initLinks internals m).Onward .handleQueue
      (firsts internals ++ [.handle .tcpHandle] ++ [.handle .timerReconnet]) ∧
    (initLinks internals m).prev (.handle .tcphandle) = .handle .asyncHandleForRecvMsg ∧
    (initLinks internals m).next (.handle .tcphandle) = .handleQueue :=
  copy_spec (circle_firsts internals m)

/-! ## The walk -/

variable {s t : ClientLoop B} {q : QueueNode} {rest visited : List QueueNode}

theorem visit_links (s : ClientLoop B) (m : Neighbours QueueNode) (q : QueueNode) :
    visit { s with links := m } q = { visit s q with links := m } := by
  cases q with
  | handle h =>
    have hclosing : isClosing { s with links := m } h = s.isClosing h := by cases h <;> rfl
    have hclose : uvClose { s with links := m } h = { s.uvClose h with links := m } := by cases h <;> rfl
    dsimp only [visit, closeWalkCb]
    rw [hclosing, hclose]
    cases s.isClosing h <;> rfl
  | handleQueue | queue | internal i => rfl

theorem foldl_visit_links (s : ClientLoop B) (m : Neighbours QueueNode) (l : List QueueNode) :
    l.foldl visit { s with links := m } = { l.foldl visit s with links := m } := by
  induction l generalizing s with
  | nil => rfl
  | cons q l ih => rw [List.foldl_cons, visit_links, ih, List.foldl_cons]

/-- **`uv_walk` visits the handles of the queue once each**, and returns. -/
theorem uvWalk_spec (hl : s.links.Returning .queue rest) (hc : s.links.Circle .handleQueue visited)
    (hd : ∀ x ∈ .handleQueue :: visited, x ∉ QueueNode.queue :: rest) {fuel : ℕ} (hfuel : rest.length < fuel) :
    ∃ m, uvWalk fuel s = some { rest.foldl visit s with links := m } := by
  induction rest generalizing s visited fuel with
  | nil =>
    obtain ⟨fuel, rfl⟩ := Nat.exists_eq_add_of_lt hfuel
    have hempty : queueEmpty s.links .queue = true := decide_eq_true hl.leads.symm
    exact ⟨s.links, if_pos hempty⟩
  | cons q rest ih =>
    obtain ⟨fuel, rfl⟩ : ∃ n, fuel = n + 1 := Nat.exists_eq_succ_of_ne_zero (Nat.ne_zero_of_lt hfuel)
    have hnext : s.links.next .queue = q := hl.leads.1
    have hq : QueueNode.queue ≠ q := fun hc => (List.nodup_cons.1 hl.nodup).1 (hc ▸ List.mem_cons_self)
    have hempty : ¬queueEmpty s.links .queue = true := by
      rw [queueEmpty, hnext, decide_eq_true_iff]
      exact hq
    have hqv : q ∉ .handleQueue :: visited := fun hm =>
      hd q hm (List.mem_cons_of_mem _ List.mem_cons_self)
    have hqr : q ∉ QueueNode.queue :: rest := by
      rw [List.mem_cons, not_or]
      exact ⟨hq.symm, (List.nodup_cons.1 (List.nodup_cons.1 hl.nodup).2).1⟩
    have hd' : ∀ x ∈ q :: .handleQueue :: visited, x ∉ QueueNode.queue :: rest := by
      intro x hx hxr
      rcases List.mem_cons.1 hx with rfl | hx
      · exact hqr hxr
      · refine hd x hx ?_
        rcases List.mem_cons.1 hxr with rfl | hxr
        · exact List.mem_cons_self
        · exact List.mem_cons_of_mem _ (List.mem_cons_of_mem q hxr)
    have hc' := queueRemove_circle_of_returning hl hc hd
    have hl' := queueInsertTail_returning (queueRemove_returning hl) hc' hqv hd'
    rw [uvWalk, if_neg hempty, queueHead, hnext]
    dsimp only
    rw [visit_links, List.foldl_cons]
    obtain ⟨m, hm⟩ := ih (s := { visit s q with
        links := queueInsertTail (queueRemove s.links q) .handleQueue q })
      hl' (queueInsertTail_circle hc' hqv) (fun x hx => hd' x (by simpa [or_comm, or_left_comm] using hx))
      (Nat.lt_of_succ_lt_succ hfuel)
    refine ⟨m, hm.trans ?_⟩
    rw [foldl_visit_links]

theorem foldl_visit_firsts (hloop : s.client.loopCloses = 0) (hcloses : s.closes .asyncHandleForRecvMsg = 0) :
    (firsts s.internals).foldl visit s = { s with
      client := { s.client with loopCloses := 1 }
      closes := Function.update s.closes .asyncHandleForRecvMsg 1 } := by
  have hinternals : ∀ (is : List ℕ) (s : ClientLoop B), (is.map QueueNode.internal).foldl visit s = s := by
    intro is
    induction is with
    | nil => exact fun _ => rfl
    | cons i is ih => exact ih
  have hasync : s.visit (.handle .asyncHandle) = { s with client := { s.client with loopCloses := 1 } } := by
    simp [visit, closeWalkCb, isClosing, closesOf, uvClose, hloop]
  rw [firsts, List.foldl_append, List.foldl_append, hinternals]
  simp only [List.foldl_cons, List.foldl_nil, hasync]
  simp [visit, closeWalkCb, isClosing, closesOf, uvClose, hcloses]

/-- `closeinl` visits the handles that are in the queue. -/
theorem closeinl_spec {l : List QueueNode} (hl : s.links.Onward .handleQueue (firsts s.internals ++ l))
    (hqueue : QueueNode.queue ∉ l) (hlen : l.length ≤ 3) (hloop : s.client.loopCloses = 0)
    (hcloses : s.closes .asyncHandleForRecvMsg = 0) : ∃ m, s.closeinl = some { l.foldl visit { s with
      client := { s.client.stopReconnect with loopCloses := 1 }
      closes := Function.update s.closes .asyncHandleForRecvMsg 1
      closed := true } with links := m } := by
  obtain ⟨q, rest, hrest⟩ := List.exists_cons_of_ne_nil (List.append_ne_nil_of_left_ne_nil (firsts_ne_nil _) l)
  rw [hrest] at hl
  have hn : QueueNode.queue ∉ .handleQueue :: q :: rest := by
    rw [← hrest]
    simp [mem_firsts, hqueue]
  obtain ⟨hc, hl'⟩ := queueMove_onward hl hn
  have hlength : (q :: rest).length < s.internals + 6 := by
    rw [← hrest]
    simp [firsts]
    omega
  have hhead : ∀ x ∈ [QueueNode.handleQueue], x ∉ QueueNode.queue :: q :: rest := by
    intro x hx hxr
    obtain rfl := List.mem_singleton.1 hx
    rcases List.mem_cons.1 hxr with hxq | hxr
    · cases hxq
    · exact (List.nodup_cons.1 hl.nodup).1 hxr
  obtain ⟨m, hm⟩ := uvWalk_spec (s := { s with
    client := s.client.stopReconnect
    links := queueMove s.links .handleQueue .queue
    closed := true }) hl' hc hhead hlength
  refine ⟨m, hm.trans ?_⟩
  rw [← hrest, List.foldl_append]
  have hfirsts := foldl_visit_firsts (s := { s with
    client := s.client.stopReconnect
    links := queueMove s.links .handleQueue .queue
    closed := true }) hloop hcloses
  rw [hfirsts]
  have hlinks := foldl_visit_links { s with
    client := { s.client.stopReconnect with loopCloses := 1 }
    closes := Function.update s.closes .asyncHandleForRecvMsg 1
    closed := true } (queueMove s.links .handleQueue .queue) l
  rw [hlinks]

end ClientLoop

/-! ## The queue in each stage of the connection -/

namespace CTCPClient

variable {B : Build} {s t : CTCPClient B} {e : Event B}

/-- The handle of the connection is the one that `init` copied, and the timer has not been started. -/
def First (s : CTCPClient B) : Prop :=
  s.registered = false ∧ s.timerReconnet = false ∧
    (s.tcphandle = .closing false true ∨ s.tcphandle.isClosing = false ∧ s.isReconnecting = false)

theorem not_first (h : s.registered = true ∨ s.tcphandle = .closed) : ¬ s.First := by
  rintro ⟨hregistered, -, hstage⟩
  rcases h with h | h
  · rw [hregistered] at h
    cases h
  · rw [h] at hstage
    exact hstage.elim nofun fun hstage => Bool.noConfusion hstage.1

/-- Only the timer and the close callback change whether the handle is registered. -/
theorem stage_of_step (hstep : s.step e = some t) (htimer : ∀ r, e ≠ .timer r) (hclosed : e ≠ .closed)
    (hasync : e = .async → s.isUserAskForClosed = false) :
    t.registered = s.registered ∧ (s.tcphandle = .closed → t.tcphandle = .closed) ∧ (s.First → t.First) := by
  have hnot {stage : ClientTcp} (hconn : s.tcphandle = stage) (hopen : stage ≠ .closed) :
      s.tcphandle = .closed → t.tcphandle = .closed := fun h => absurd (hconn.symm.trans h) hopen
  cases step_cases hstep with
  | closeOpen o hflag | closeRest o hflag =>
    rw [hasync rfl] at hflag
    cases hflag
  | closed | closedSilently => exact absurd rfl hclosed
  | attemptFailed r | attempt => exact absurd rfl (htimer _)
  | recvError hconn => exact ⟨rfl, hnot hconn nofun, fun h => ⟨h.1, h.2.1, .inl rfl⟩⟩
  | refused readStart hconn =>
    refine ⟨rfl, hnot hconn nofun, fun h => ?_⟩
    obtain ⟨hregistered, htimer, hstage | ⟨-, hoff⟩⟩ := h
    · rw [hconn] at hstage
      cases hstage
    · refine ⟨hregistered, ?_, .inr ⟨rfl, hoff⟩⟩
      rw [htimer, hoff]
      rfl
  | connected readStart hconn hdata hoff =>
    exact ⟨rfl, hnot hconn nofun, fun h => ⟨h.1, h.2.1, .inr ⟨rfl, hoff⟩⟩⟩
  | reconnected readStart hconn => exact ⟨rfl, hnot hconn nofun, fun h => ⟨h.1, rfl, .inr ⟨rfl, rfl⟩⟩⟩
  | cancelled readStart hconn =>
    refine ⟨rfl, hnot hconn nofun, fun h => ?_⟩
    obtain ⟨-, -, hstage | ⟨hstage, -⟩⟩ := h
    · rw [hconn] at hstage
      cases hstage
    · rw [hconn] at hstage
      cases hstage
  | out | received | faulted | userClose => exact ⟨rfl, id, id⟩

theorem loopCloses_of_step (hstep : s.step e = some t) (hasync : e = .async → s.isUserAskForClosed = false) :
    t.loopCloses = s.loopCloses := by
  cases step_cases hstep with
  | closeOpen o hflag | closeRest o hflag =>
    rw [hasync rfl] at hflag
    cases hflag
  | out | received | faulted | userClose | recvError | closed | closedSilently | attemptFailed | attempt
  | refused | connected | reconnected | cancelled => rfl

theorem loopCloses_closeinl (hloop : s.loopCloses = 0) : s.closeinl.loopCloses = 1 := by
  unfold closeinl closeWalk stopReconnect
  dsimp only
  rw [if_pos hloop]
  split_ifs <;> rfl

theorem closeinl_of_not_registered (hregistered : s.registered = false) (hloop : s.loopCloses = 0) :
    s.closeinl = { s.stopReconnect with loopCloses := 1 } := by
  unfold closeinl
  dsimp only [stopReconnect]
  rw [hregistered, if_pos hloop, if_neg Bool.false_ne_true]

theorem timer_of_step {r : ReconnectResults} (hstep : s.step (.timer r) = some t) :
    s.timerReconnet = true ∧ t = s.reconnectTimer r := by
  unfold step at hstep
  split_ifs at hstep
  simp only [callback, Option.ite_none_right_eq_some, Option.some.injEq] at hstep
  exact ⟨hstep.1.2, hstep.2.symm⟩

theorem async_of_step (hstep : s.step .async = some t) :
    (s.crashed = false ∧ s.Idle ∧ s.out.asyncPending = true ∧ s.loopCloses = 0) ∧ s.asyncCloseCb = t := by
  unfold step at hstep
  split_ifs at hstep with hcrashed
  simp only [callback, Option.ite_none_right_eq_some, Option.some.injEq] at hstep
  exact ⟨⟨Bool.eq_false_iff.2 hcrashed, hstep.1⟩, hstep.2⟩

theorem closed_of_step (hstep : s.step .closed = some t) :
    s.tcphandle ≠ .closed ∧ t.tcphandle = .closed ∧ t.registered = false := by
  unfold step at hstep
  split_ifs at hstep
  simp only [callback, Option.ite_none_right_eq_some] at hstep
  replace hstep := hstep.2
  unfold closeCallback at hstep
  split at hstep
  · next hconn hdata =>
    cases hstep
    exact ⟨by simp [hconn], rfl, rfl⟩
  · next hconn =>
    cases hstep
    exact ⟨by simp [hconn], rfl, rfl⟩
  · cases hstep

end CTCPClient

namespace ClientLoop

variable {B : Build} {s t : ClientLoop B} {c : CTCPClient B} {e : CTCPClient.Event B} {internals : ℕ}
  {m : Neighbours QueueNode}

/-- The links while the connection is the first one; when `QUEUE_REMOVE` has cut off the handles from
`m_tcpHandle` on; when `ReconnectTimer` has initialised the handle of the connection; and when it has done so
again before the handle was closed. -/
inductive Queued (c : CTCPClient B) (internals : ℕ) (m : Neighbours QueueNode) : Prop
  | first (hfirst : c.First)
      (hl : m.Onward .handleQueue (firsts internals ++ [.handle .tcpHandle] ++ [.handle .timerReconnet]))
      (hprev : m.prev (.handle .tcphandle) = .handle .asyncHandleForRecvMsg)
      (hnext : m.next (.handle .tcphandle) = .handleQueue)
  | dropped (hclosed : c.tcphandle = .closed) (hregistered : c.registered = false)
      (hl : m.Onward .handleQueue (firsts internals))
  | linked (hregistered : c.registered = true)
      (hl : m.Onward .handleQueue (firsts internals ++ [.handle .tcphandle]))
      (hprev : m.prev (.handle .tcphandle) = .handle .asyncHandleForRecvMsg)
      (hnext : m.next (.handle .tcphandle) = .handleQueue)
  | twice (hstage : c.registered = true ∨ c.tcphandle = .closed)
      (hl : m.Onward .handleQueue (firsts internals ++ [.handle .tcphandle]))
      (hprev : m.prev (.handle .tcphandle) = .handle .tcphandle)
      (hnext : m.next (.handle .tcphandle) = .handle .tcphandle)

/-- `uv_tcp_init` in `ReconnectTimer`. -/
theorem Queued.handleInit (h : Queued c internals m) (hfirst : ¬ c.First) {c' : CTCPClient B}
    (hregistered : c'.registered = true) : Queued c' internals (handleInit m .tcphandle) := by
  have hagain (hl : m.Onward .handleQueue (firsts internals ++ [.handle .tcphandle])) :
      Queued c' internals (SimpleUv.handleInit m .tcphandle) := by
    obtain ⟨q, l, hfirsts⟩ := List.exists_cons_of_ne_nil (firsts_ne_nil internals)
    rw [hfirsts] at hl
    obtain ⟨hl', hprev', hnext'⟩ := queueInsertTail_last hl
    exact .twice (.inl hregistered) (hfirsts ▸ hl') hprev' hnext'
  cases h with
  | first h => exact absurd h hfirst
  | dropped hclosed hunregistered hl =>
    obtain ⟨hl', hprev, hnext⟩ := queueInsertTail_onward hl (q := .handle .tcphandle) (by simp [mem_firsts])
    exact .linked hregistered hl' (hprev.trans (getLastD_firsts ..)) hnext
  | linked hregistered hl | twice hstage hl => exact hagain hl

/-- The close of the handle of the connection. -/
theorem Queued.closed (h : Queued c internals m) (hopen : c.tcphandle ≠ .closed) {c' : CTCPClient B}
    (hclosed : c'.tcphandle = .closed) (hregistered : c'.registered = false) :
    Queued c' internals (queueRemove m (.handle .tcphandle)) := by
  cases h with
  | first hfirst hl hprev hnext =>
    rw [List.append_assoc] at hl
    exact .dropped hclosed hregistered
      (queueRemove_onward hl (firsts_ne_nil _) (hprev.trans (getLastD_firsts ..).symm) hnext)
  | dropped h => exact absurd h hopen
  | linked hwas hl hprev hnext =>
    exact .dropped hclosed hregistered
      (queueRemove_onward hl (firsts_ne_nil _) (hprev.trans (getLastD_firsts ..).symm) hnext)
  | twice hstage hl hprev hnext =>
    rw [queueRemove_self hprev hnext]
    exact .twice (.inr hclosed) hl hprev hnext

/-- A step of the client that is not `closeinl`. -/
theorem Queued.step (h : Queued s.client internals s.links) (hstep : s.client.step e = some c)
    (hasync : e = .async → s.client.isUserAskForClosed = false) : Queued c internals (s.relink e) := by
  cases e with
  | timer r =>
    obtain ⟨htimer, rfl⟩ := CTCPClient.timer_of_step hstep
    have hfirst : ¬ s.client.First := fun hfirst => by
      rw [hfirst.2.1] at htimer
      cases htimer
    by_cases hcond : s.client.isReconnecting = true ∧ r.tcpInit = 0
    · rw [relink, if_pos hcond]
      refine h.handleInit hfirst ?_
      rw [CTCPClient.reconnectTimer, if_pos hcond.1, if_neg (not_not.2 hcond.2)]
      dsimp only
      split_ifs <;> rfl
    · have hsame : s.client.reconnectTimer r = s.client := by
        unfold CTCPClient.reconnectTimer
        split_ifs with hreconnecting hinit
        · rfl
        · exact absurd ⟨hreconnecting, not_not.1 hinit⟩ hcond
        · exact absurd ⟨hreconnecting, not_not.1 hinit⟩ hcond
        · rfl
      rw [relink, if_neg hcond, hsame]
      exact h
  | closed =>
    obtain ⟨hopen, hclosed, hregistered⟩ := CTCPClient.closed_of_step hstep
    exact h.closed hopen hclosed hregistered
  | call | send | userClose | async | drain | uvWrite | afterSend | recv | recvError | connected =>
    obtain ⟨hregistered, hclosed, hfirst⟩ := CTCPClient.stage_of_step hstep (by simp) (by simp) hasync
    cases h with
    | first h hl hprev hnext => exact .first (hfirst h) hl hprev hnext
    | dropped h hwas hl => exact .dropped (hclosed h) (hregistered.trans hwas) hl
    | linked hwas hl hprev hnext => exact .linked (hregistered.trans hwas) hl hprev hnext
    | twice hstage hl hprev hnext => exact .twice (hstage.imp hregistered.trans hclosed) hl hprev hnext

/-! ## The steps of the client -/

/-- A handle of the connection that is in the queue is closed as `CTCPClient.closeinl` closes it. -/
theorem visit_connection (hloop : s.client.loopCloses = 0)
    (hstage : s.client.registered = true ∨ s.client.tcphandle = .closed) (closes : LoopHandle → ℕ) :
    visit { s with
      client := { s.client.stopReconnect with loopCloses := 1 }, closes := closes, closed := true }
      (.handle .tcphandle) = { s with client := s.client.closeinl, closes := closes, closed := true } := by
  unfold CTCPClient.closeinl CTCPClient.closeWalk
  dsimp only [visit, closeWalkCb, isClosing, CTCPClient.stopReconnect]
  rw [hloop]
  by_cases hclosing : s.client.tcphandle.isClosing = true
  · simp [hclosing]
  · have hregistered : s.client.registered = true := hstage.resolve_right fun hclosed =>
      hclosing (hclosed ▸ rfl)
    simp [hclosing, hregistered, uvClose]

/-- What `closeinl` does to the handles: the connection is treated as in `CTCPClient.closeinl`, and the other
handles are closed if they are in the queue, which is as long as the first connection has not been closed. -/
theorem closeinl_cases (h : Queued s.client s.internals s.links) (hloop : s.client.loopCloses = 0)
    (hcloses : ∀ h, s.closes h = 0) : ∃ t, s.closeinl = some t ∧ t.client = s.client.closeinl ∧
      t.closed = true ∧ t.closes .asyncHandleForRecvMsg = 1 ∧
      (s.client.First ∧ t.closes .tcpHandle = 1 ∧ t.closes .timerReconnet = 1 ∨
        ¬ s.client.First ∧ t.closes .tcpHandle = 0) := by
  have hvisited (hstage : s.client.registered = true ∨ s.client.tcphandle = .closed)
      (hl : s.links.Onward .handleQueue (firsts s.internals ++ [.handle .tcphandle])) :
      ∃ t, s.closeinl = some t ∧ t.client = s.client.closeinl ∧ t.closed = true ∧
        t.closes .asyncHandleForRecvMsg = 1 ∧ t.closes .tcpHandle = 0 := by
    obtain ⟨m, hm⟩ := closeinl_spec hl (by simp) (by simp) hloop (hcloses _)
    rw [List.foldl_cons, List.foldl_nil, visit_connection hloop hstage] at hm
    refine ⟨_, hm, rfl, rfl, ?_⟩
    simp [hcloses]
  cases h with
  | first hfirst hl =>
    rw [List.append_assoc] at hl
    obtain ⟨m, hm⟩ := closeinl_spec hl (by simp) (by simp) hloop (hcloses _)
    refine ⟨_, hm, ?_, ?_⟩
    · simp [visit, closeWalkCb, isClosing, closesOf, uvClose, hcloses, CTCPClient.closeinl, hfirst.1, hloop,
        CTCPClient.stopReconnect]
    · simp [visit, closeWalkCb, isClosing, closesOf, uvClose, hcloses, hfirst]
  | dropped hclosed hregistered hl =>
    rw [← List.append_nil (firsts s.internals)] at hl
    obtain ⟨m, hm⟩ := closeinl_spec hl (by simp) (by simp) hloop (hcloses _)
    refine ⟨_, hm, ?_, ?_⟩
    · simp [CTCPClient.closeinl, hregistered, hloop, CTCPClient.stopReconnect]
    · simp [hcloses, CTCPClient.not_first (.inr hclosed)]
  | linked hregistered hl =>
    obtain ⟨t, ht, hclient, hclosed, hasync, htcp⟩ := hvisited (.inl hregistered) hl
    exact ⟨t, ht, hclient, hclosed, hasync, .inr ⟨CTCPClient.not_first (.inl hregistered), htcp⟩⟩
  | twice hstage hl =>
    obtain ⟨t, ht, hclient, hclosed, hasync, htcp⟩ := hvisited hstage hl
    exact ⟨t, ht, hclient, hclosed, hasync, .inr ⟨CTCPClient.not_first hstage, htcp⟩⟩

/-! ### What every run keeps -/

/-- Until `closeinl` runs nothing but the connection has been closed, and the queue is as the stage of the
connection says. -/
structure Inv (s : ClientLoop B) : Prop where
  counted : s.client.Counted
  before : s.closed = false → s.client.loopCloses = 0 ∧ (∀ h, s.closes h = 0) ∧
    Queued s.client s.internals s.links
  after : s.closed = true → s.client.loopCloses = 1

theorem inv_start (internals : ℕ) (m : Neighbours QueueNode) (memory : List.Vector Byte bufferSize)
    (u : Uninit) : (start B internals m memory u).Inv where
  counted := CTCPClient.counted_start memory u
  before _ := by
    obtain ⟨hl, hprev, hnext⟩ := initLinks_spec internals m
    exact ⟨rfl, fun _ => rfl, .first ⟨rfl, rfl, .inr ⟨rfl, rfl⟩⟩ hl hprev hnext⟩
  after := nofun

theorem step_of_ne (he : e ≠ .async) : s.step (.client e) =
    (s.client.step e).map fun client => { s with client := client, links := s.relink e } := by
  cases e with
  | async => exact absurd rfl he
  | call | send | userClose | drain | uvWrite | afterSend | recv | recvError | closed | timer | connected => rfl

theorem step_async (h : s.step (.client .async) = some t) : s.client.loopCloses = 0 ∧
    s.client.step .async = some s.client.asyncCloseCb ∧ s.asyncCloseCb = some t := by
  unfold step at h
  simp only [Option.ite_none_right_eq_some] at h
  obtain ⟨⟨hcrashed, hidle, hpending, hloop⟩, h⟩ := h
  refine ⟨hloop, ?_, h⟩
  rw [CTCPClient.step, hcrashed, if_neg Bool.false_ne_true]
  exact if_pos ⟨hidle, hpending, hloop⟩

/-- **What a step does**: it is a step of the client other than `closeinl`, or `closeinl`, or the close of
another handle. -/
theorem step_cases {e : Event B} (h : s.step e = some t) :
    (∃ e' c, e = .client e' ∧ (e' = .async → s.client.isUserAskForClosed = false) ∧ s.client.step e' = some c ∧
      t = { s with client := c, links := s.relink e' }) ∨
    (∃ o, e = .client .async ∧ s.client.isUserAskForClosed = true ∧ s.client.loopCloses = 0 ∧
      s.client.step .async = some (CTCPClient.closeinl { s.client with out := o }) ∧
      closeinl { s with client := { s.client with out := o } } = some t) ∨
    (∃ h m f, e = .closed h ∧ h ≠ .tcphandle ∧ s.isClosing h = true ∧
      t = { s with links := m, finished := f }) := by
  cases e with
  | client e =>
    cases e with
    | async =>
      obtain ⟨hloop, hstep, h⟩ := step_async h
      obtain ⟨o, ho⟩ : ∃ o, o = { s.client.out with asyncPending := false } := ⟨_, rfl⟩
      rw [CTCPClient.asyncCloseCb, ← ho] at hstep
      rw [asyncCloseCb, ← ho] at h
      by_cases hflag : s.client.isUserAskForClosed = true
      · exact .inr (.inl ⟨o, rfl, hflag, hloop, hstep.trans (congrArg some (if_pos hflag)),
          (if_pos hflag).symm.trans h⟩)
      · have ht := (if_neg hflag).symm.trans h
        exact .inl ⟨.async, _, rfl, fun _ => Bool.eq_false_iff.2 hflag,
          hstep.trans (congrArg some (if_neg hflag)), (Option.some_inj.1 ht).symm⟩
    | call | send | userClose | drain | uvWrite | afterSend | recv | recvError | closed | timer | connected =>
      obtain ⟨c, hc, rfl⟩ := Option.map_eq_some_iff.1 h
      exact .inl ⟨_, c, rfl, by simp, hc, rfl⟩
  | closed h' =>
    unfold step at h
    simp only [Option.ite_none_right_eq_some, Option.some.injEq] at h
    exact .inr (.inr ⟨h', _, _, rfl, h.1.1, h.1.2.1, h.2.symm⟩)

theorem Queued.out (h : Queued c internals m) (o : Outbound B) : Queued { c with out := o } internals m := by
  cases h with
  | first hfirst hl hprev hnext => exact .first hfirst hl hprev hnext
  | dropped hclosed hregistered hl => exact .dropped hclosed hregistered hl
  | linked hregistered hl hprev hnext => exact .linked hregistered hl hprev hnext
  | twice hstage hl hprev hnext => exact .twice hstage hl hprev hnext

/-- When `closeinl` runs. -/
theorem Inv.closeinl (hs : s.Inv) (hloop : s.client.loopCloses = 0) (o : Outbound B)
    (h : ClientLoop.closeinl { s with client := { s.client with out := o } } = some t) :
    s.closed = false ∧ Queued s.client s.internals s.links ∧
      t.client = CTCPClient.closeinl { s.client with out := o } ∧ t.closed = true ∧
      t.closes .asyncHandleForRecvMsg = 1 ∧
      (s.client.First ∧ t.closes .tcpHandle = 1 ∧ t.closes .timerReconnet = 1 ∨
        ¬ s.client.First ∧ t.closes .tcpHandle = 0) := by
  have hclosed : s.closed = false := Bool.eq_false_iff.2 fun hclosed => by
    rw [hs.after hclosed] at hloop
    cases hloop
  obtain ⟨-, hcloses, hqueued⟩ := hs.before hclosed
  obtain ⟨t', ht', hcases⟩ := closeinl_cases
    (s := { s with client := { s.client with out := o } }) (hqueued.out o) hloop hcloses
  obtain rfl : t' = t := Option.some_inj.1 (ht'.symm.trans h)
  exact ⟨hclosed, hqueued, hcases⟩

theorem not_isClosing (hloop : s.client.loopCloses = 0) (hcloses : ∀ h, s.closes h = 0) {h : LoopHandle}
    (hne : h ≠ .tcphandle) : s.isClosing h = false := by
  cases h with
  | asyncHandle => exact decide_eq_false (not_not.2 hloop)
  | asyncHandleForRecvMsg | tcpHandle | timerReconnet => exact decide_eq_false (not_not.2 (hcloses _))
  | tcphandle => exact absurd rfl hne

theorem Inv.step (hs : s.Inv) {e : Event B} (h : s.step e = some t) : t.Inv := by
  rcases step_cases h with ⟨e', c, rfl, hasync, hstep, rfl⟩ | ⟨o, rfl, hflag, hloop, hstep, hcloseinl⟩ |
    ⟨h', m, f, rfl, hne, hclosing, rfl⟩
  · have hkeep := CTCPClient.loopCloses_of_step hstep hasync
    refine ⟨hs.counted.step hstep, fun hclosed => ?_, fun hclosed => hkeep.trans (hs.after hclosed)⟩
    obtain ⟨hloop, hcloses, hqueued⟩ := hs.before hclosed
    exact ⟨hkeep.trans hloop, hcloses, hqueued.step hstep hasync⟩
  · obtain ⟨-, -, hclient, hclosed, -⟩ := hs.closeinl hloop o hcloseinl
    refine ⟨?_, fun hopen => ?_, fun _ => ?_⟩
    · rw [hclient]
      exact hs.counted.step hstep
    · rw [hclosed] at hopen
      cases hopen
    · rw [hclient]
      exact CTCPClient.loopCloses_closeinl hloop
  · refine ⟨hs.counted, fun hclosed => ?_, hs.after⟩
    -- Nothing else is closing before `closeinl` has run.
    obtain ⟨hloop, hcloses, -⟩ := hs.before hclosed
    rw [not_isClosing hloop hcloses hne] at hclosing
    cases hclosing

/-- The steps are those of `CTCPClient`. -/
theorem Inv.step_client (hs : s.Inv) (h : s.step (.client e) = some t) : s.client.step e = some t.client := by
  rcases step_cases h with ⟨e', c, he, -, hstep, rfl⟩ | ⟨o, he, -, hloop, hstep, hcloseinl⟩ | ⟨h', m, f, he, -⟩
  · cases he
    exact hstep
  · cases he
    rw [(hs.closeinl hloop o hcloseinl).2.2.1]
    exact hstep
  · cases he

/-- **Every step of `CTCPClient` is a step with the handle queue**: the walk of `closeinl` returns, and does
to the connection what `CTCPClient.closeinl` says. -/
theorem Inv.step_client_iff (hs : s.Inv) :
    s.client.step e = some c ↔ ∃ t, s.step (.client e) = some t ∧ t.client = c := by
  constructor
  · intro hstep
    by_cases hasync : e = .async
    · obtain rfl := hasync
      obtain ⟨hcond, hc⟩ := CTCPClient.async_of_step hstep
      have hrun : s.step (.client .async) = s.asyncCloseCb := if_pos hcond
      obtain ⟨o, ho⟩ : ∃ o, o = { s.client.out with asyncPending := false } := ⟨_, rfl⟩
      rw [CTCPClient.asyncCloseCb, ← ho] at hc
      rw [hrun, asyncCloseCb, ← ho]
      by_cases hflag : s.client.isUserAskForClosed = true
      · have hopen : s.closed = false := Bool.eq_false_iff.2 fun hclosed =>
          absurd ((hs.after hclosed).symm.trans hcond.2.2.2) Nat.one_ne_zero
        obtain ⟨hloop, hcloses, hqueued⟩ := hs.before hopen
        obtain ⟨t, ht, hclient, -⟩ := closeinl_cases
          (s := { s with client := { s.client with out := o } }) (hqueued.out o) hloop hcloses
        exact ⟨t, (if_pos hflag).trans ht, hclient.trans ((if_pos hflag).symm.trans hc)⟩
      · exact ⟨_, if_neg hflag, (if_neg hflag).symm.trans hc⟩
    · rw [step_of_ne hasync, hstep]
      exact ⟨_, rfl, rfl⟩
  · rintro ⟨t, h, rfl⟩
    exact hs.step_client h

/-! ### Closing the client -/

theorem Queued.first_of_closing (h : Queued c internals m) (hregistered : c.registered = false)
    (hclosing : c.tcphandle = .closing false true) : c.First := by
  cases h with
  | first hfirst => exact hfirst
  | dropped hclosed =>
    rw [hclosing] at hclosed
    cases hclosed
  | linked hwas =>
    rw [hregistered] at hwas
    cases hwas
  | twice hstage =>
    rw [hregistered, hclosing] at hstage
    exact hstage.elim nofun nofun

/-- `closeinl` closes all handles while the close callback of the first connection is to come. -/
theorem Inv.shut_closeinl (hs : s.Inv) (hloop : s.client.loopCloses = 0) (o : Outbound B)
    (h : ClientLoop.closeinl { s with client := { s.client with out := o } } = some t)
    (hregistered : s.client.registered = false) (hclosing : s.client.tcphandle = .closing false true) :
    t.Shut := by
  obtain ⟨-, hqueued, hclient, -, hrecvMsg, ⟨-, htcp, htimer⟩ | ⟨hnot, -⟩⟩ := hs.closeinl hloop o h
  · have hcounted := hs.counted
    unfold CTCPClient.Counted at hcounted
    rw [hclosing] at hcounted
    replace hclient := hclient.trans
      (CTCPClient.closeinl_of_not_registered (s := { s.client with out := o }) hregistered hloop)
    unfold Shut
    rw [hclient]
    refine fun _ => ⟨fun h => ?_, rfl, rfl⟩
    cases h with
    | asyncHandle => simp [isClosing, closesOf, hclient]
    | asyncHandleForRecvMsg => simp [isClosing, closesOf, hrecvMsg]
    | tcpHandle => simp [isClosing, closesOf, htcp]
    | timerReconnet => simp [isClosing, closesOf, htimer]
    | tcphandle =>
      simpa [isClosing, closesOf, hclient, hclosing, ClientTcp.isClosing, CTCPClient.stopReconnect]
        using hcounted
  · exact absurd (hqueued.first_of_closing hregistered hclosing) hnot

/-- Otherwise it leaves one open: the handle of the first connection, which is not in the queue, or
`m_tcpHandle`, which is no longer there. -/
theorem Inv.not_shut_closeinl (hs : s.Inv) (hloop : s.client.loopCloses = 0) (o : Outbound B)
    (h : ClientLoop.closeinl { s with client := { s.client with out := o } } = some t)
    (hnot : ¬ (s.client.registered = false ∧ s.client.tcphandle = .closing false true)) : ¬ t.Shut := by
  intro hshut
  obtain ⟨-, -, hclient, hclosed, -, ⟨⟨hregistered, -, hstage⟩, -⟩ | ⟨-, htcp⟩⟩ := hs.closeinl hloop o h
  · have hopen := (hstage.resolve_left fun hclosing => hnot ⟨hregistered, hclosing⟩).1
    have hclosing : t.client.tcphandle.isClosing = true := ((hshut hclosed).1 .tcphandle).1
    rw [hclient.trans
      (CTCPClient.closeinl_of_not_registered (s := { s.client with out := o }) hregistered hloop)] at hclosing
    exact absurd (hopen.symm.trans hclosing) Bool.false_ne_true
  · exact absurd (htcp.symm.trans ((hshut hclosed).1 .tcpHandle).2) Nat.zero_ne_one

/-- What `closeinl` has closed stays closed, and the timer stays off. -/
theorem Shut.step (h : s.Shut) (hs : s.Inv) {e : Event B} (hok : s.FirstClosing e) (hstep : s.step e = some t) :
    t.Shut := by
  rcases step_cases hstep with ⟨e', c, rfl, hasync, hclient, rfl⟩ | ⟨o, rfl, hflag, hloop, -, hcloseinl⟩ |
    ⟨h', m, f, -, -, -, rfl⟩
  · intro hclosed
    obtain ⟨hall, hreconnecting, htimer⟩ := h hclosed
    have hloop := hs.after hclosed
    have hquiet : s.client.Quiet := fun _ =>
      ⟨(hall .tcphandle).1, (hall .tcphandle).2, hreconnecting, htimer⟩
    have hkeep := CTCPClient.loopCloses_of_step hclient hasync
    obtain ⟨hclosing, hcloses, hoff⟩ := hquiet.step hs.counted
      (fun _ _ hzero => absurd (hloop.symm.trans hzero) Nat.one_ne_zero) hclient
      (by rw [hkeep, hloop]; exact Nat.one_ne_zero)
    refine ⟨fun h => ?_, hoff⟩
    cases h with
    | asyncHandle => simp [isClosing, closesOf, hkeep, hloop]
    | asyncHandleForRecvMsg => exact hall .asyncHandleForRecvMsg
    | tcpHandle => exact hall .tcpHandle
    | timerReconnet => exact hall .timerReconnet
    | tcphandle => exact ⟨hclosing, hcloses⟩
  · obtain ⟨hregistered, hclosing⟩ := hok rfl hflag hloop
    exact hs.shut_closeinl hloop o hcloseinl hregistered hclosing
  · exact h

theorem Inv.not_shut (hs : s.Inv) {e : Event B} (hstep : s.step e = some t) (hok : ¬ s.FirstClosing e) :
    ¬ t.Shut := by
  unfold FirstClosing at hok
  push Not at hok
  obtain ⟨rfl, hflag, hloop, hnot⟩ := hok
  rcases step_cases hstep with ⟨e', c, he, hasync, -, -⟩ | ⟨o, -, -, -, -, hcloseinl⟩ | ⟨h', m, f, he, -⟩
  · cases he
    exact absurd (hasync rfl) (by rw [hflag]; exact Bool.noConfusion)
  · exact hs.not_shut_closeinl hloop o hcloseinl fun h => hnot h.1 h.2
  · cases he

/-- **Closing the client closes everything that it opened, with the timer off for good, exactly when** the
handle of the first connection is being closed at that time: earlier it is open and not in the queue, and
later neither `m_tcpHandle` nor the timer is in the queue. -/
theorem shut_iff (internals : ℕ) (m : Neighbours QueueNode) (memory : List.Vector Byte bufferSize) (u : Uninit)
    (es : List (Event B)) : Always step Shut (start B internals m memory u) es ↔
      Along step FirstClosing (start B internals m memory u) es := by
  refine always_iff_along (I := fun s => s.Inv ∧ s.Shut) (A := fun _ => True) ?_ ?_ (fun _ h => h.2)
    ⟨inv_start internals m memory u, nofun⟩ (fun _ _ => trivial)
  · exact fun s e t hs _ hok hstep => ⟨hs.1.step hstep, hs.2.step hs.1 hok hstep⟩
  · exact fun s e t hs _ hok hstep => hs.1.not_shut hstep hok

/-- The client in a loop with one handle of libuv. -/
def firstStart : ClientLoop zeroBuild :=
  start zeroBuild 1 ⟨fun _ => .handleQueue, fun _ => .handleQueue⟩ (.replicate bufferSize 0) zeroUninit

/-- It has connected for the first time, and the user has called `Close`. -/
def firstConnection : ClientLoop zeroBuild where
  __ := firstStart
  client := { firstStart.client with
    tcphandle := .connected 0 true
    isUserAskForClosed := true
    out := { firstStart.client.out with asyncPending := true } }

/-- The walk does not find the handle of the first connection. -/
theorem firstConnection_open :
    ¬ Always step Shut firstStart [.client (.connected 0 0), .client .userClose, .client .async] := by
  intro h
  have hconnected : exec step firstStart [.client (.connected 0 0), .client .userClose] =
      some firstConnection := rfl
  have hs : firstConnection.Inv :=
    (always_of_step (fun _ _ _ hs => hs.step) (inv_start _ _ _ _) _).last hconnected
  have hclose : Always step Shut firstConnection [.client .async] := Always.of_exec (by exact h) hconnected
  obtain ⟨t, ht, -⟩ := (hs.step_client_iff (e := .async)).1 rfl
  exact hs.not_shut ht (fun hok => absurd (hok rfl rfl rfl).2 nofun) (hclose.2 t ht)

end ClientLoop

end SimpleUv
