import SimpleUv.TcpClient.Client
import SimpleUv.Foundations.Transition

/-!
# The pipe

What the outgoing side of the client is for: a bounded queue of bytes between the threads in `Send`
and the loop thread, which gives its content to `uv_write` in blocks. `Outbound.pipe` forgets the ring
buffer and the write parameters. Every step of the client is a step of the pipe (`step_pipe`), and
what the pipe can do while nothing else happens, the client can do (`exec_flow`).
-/

namespace SimpleUv

open Foundations

/-- Where the loop thread is, with the block it is about to write. -/
inductive PipeLoop (B : Build)
  | idle
  | sendInl (recv : Option (Chunk B))
  | writing (block : List Byte) (recv : Option (Chunk B))

/-- The outgoing side without its buffers. -/
structure Pipe (B : Build) where
  queue : List Byte
  asyncPending : Bool
  senders : ℕ → Option (Sender B)
  inflight : ℕ
  loop : PipeLoop B
  calls : List (Chunk B)
  accepted : List (ℕ × Byte)
  taken : List Byte
  writes : List (ℕ × List Byte)

namespace Pipe

variable {B : Build} (p : Pipe B)

/-- Nothing sent. -/
def start : Pipe B where
  queue := []
  asyncPending := false
  senders _ := none
  inflight := 0
  loop := .idle
  calls := []
  accepted := []
  taken := []
  writes := []

/-- The bytes `Send` has accepted. -/
def acceptedBytes : List Byte := p.accepted.map Prod.snd

/-- The block about to be written. -/
def held : List Byte :=
  match p.loop with
  | .writing block _ => block
  | _ => []

/-- The payloads of the `uv_write` calls that returned 0. -/
def written : List Byte := p.writes.flatMap Prod.snd

/-- A thread calls `Send`. -/
def call (t : ℕ) (data : Chunk B) : Option (Pipe B) :=
  match p.senders t with
  | some _ => none
  | none =>
    if data.bytes = [] then some p
    else some { p with
      asyncPending := true
      senders := Function.update p.senders t (some ⟨p.calls.length, data, 0, .check⟩)
      calls := p.calls ++ [data] }

/-- The locked section of `Send`. -/
def sendWrite (t : ℕ) (s : Sender B) : Pipe B :=
  let new := s.rest.take (s.portion p.queue.length)
  { p with
    queue := p.queue ++ new
    accepted := p.accepted ++ new.map (Prod.mk s.call)
    senders := Function.update p.senders t (some (s.advance (s.portion p.queue.length))) }

/-- The next step of a thread in `Send`. -/
def sendStep (isUserAskForClosed : Bool) (t : ℕ) : Option (Pipe B) :=
  match p.senders t with
  | none => none
  | some s =>
    match s.pc with
    | .check =>
      let pc := if isUserAskForClosed then .signal else .write
      some { p with senders := Function.update p.senders t (some { s with pc := pc }) }
    | .write => some (p.sendWrite t s)
    | .signal => some { p with asyncPending := true, senders := Function.update p.senders t none }

/-- A block leaves the queue. -/
def takeBlock (recv : Option (Chunk B)) : Pipe B :=
  { p with
    queue := p.queue.drop bufferSize
    taken := p.taken ++ p.queue.take bufferSize
    loop := .writing (p.queue.take bufferSize) recv }

/-- The next locked section of `send_inl`. -/
def drain : Option (Pipe B) :=
  match p.loop with
  | .sendInl recv => some (if p.queue = [] then { p with loop := .idle } else p.takeBlock recv)
  | _ => none

/-- The block is given to `uv_write`, on the connection `conn`. -/
def uvWrite (conn : Option ℕ) (res : ℤ) : Option (Pipe B) :=
  match p.loop with
  | .writing block recv =>
    if res = 0 then
      conn.map fun n => { p with
        inflight := p.inflight + 1
        writes := p.writes ++ [(n, block)]
        loop := .sendInl recv }
    else some { p with loop := .sendInl recv }
  | _ => none

/-- `AfterSend`, which is called when the loop thread is idle. -/
def afterSend (status : ℤ) : Option (Pipe B) :=
  match p.inflight with
  | 0 => none
  | n + 1 => some { p with inflight := n, loop := if status < 0 then .idle else .sendInl none }

/-- What an event does, when the user has asked for the close or not and the handle of the connection
has a socket or not. -/
def step (isUserAskForClosed : Bool) (socket : Option ℕ) (p : Pipe B) :
    CTCPClient.Event B → Option (Pipe B)
  | .call t data => p.call t data
  | .send t => p.sendStep isUserAskForClosed t
  | .userClose => some { p with asyncPending := true }
  | .drain => p.drain
  | .uvWrite res => p.uvWrite socket res
  | .async =>
    match p.loop, p.asyncPending with
    | .idle, true => some { p with
        asyncPending := false
        loop := if isUserAskForClosed then .idle else .sendInl none }
    | _, _ => none
  | .afterSend _ status =>
    match p.loop with
    | .idle => p.afterSend status
    | _ => none
  | .recv c =>
    match p.loop with
    | .idle => some { p with loop := .sendInl (some c) }
    | _ => none
  | .recvError | .closed | .timer _ | .connected _ _ =>
    match p.loop with
    | .idle => some p
    | _ => none

variable {p} {q : Pipe B}

/-- The steps of the pipe, one constructor for each branch. -/
inductive Effect (flag : Bool) (socket : Option ℕ) (p : Pipe B) : CTCPClient.Event B → Pipe B → Prop
  | same (e : CTCPClient.Event B) : Effect flag socket p e p
  | call {t : ℕ} {data : Chunk B} (hs : p.senders t = none) (hdata : data.bytes ≠ []) :
      Effect flag socket p (.call t data) { p with
        asyncPending := true
        senders := Function.update p.senders t (some ⟨p.calls.length, data, 0, .check⟩)
        calls := p.calls ++ [data] }
  | check {t : ℕ} {s : Sender B} (hs : p.senders t = some s) (hpc : s.pc = .check) :
      Effect flag socket p (.send t) { p with
        senders := Function.update p.senders t
          (some { s with pc := if flag then .signal else .write }) }
  | write {t : ℕ} {s : Sender B} (hs : p.senders t = some s) (hpc : s.pc = .write) :
      Effect flag socket p (.send t) (p.sendWrite t s)
  | signal {t : ℕ} {s : Sender B} (hs : p.senders t = some s) (hpc : s.pc = .signal) :
      Effect flag socket p (.send t)
        { p with asyncPending := true, senders := Function.update p.senders t none }
  | userClose : Effect flag socket p .userClose { p with asyncPending := true }
  | async (hloop : p.loop = .idle) (hasync : p.asyncPending = true) :
      Effect flag socket p .async
        { p with asyncPending := false, loop := if flag then .idle else .sendInl none }
  | empty {recv : Option (Chunk B)} (hloop : p.loop = .sendInl recv) (hq : p.queue = []) :
      Effect flag socket p .drain { p with loop := .idle }
  | take {recv : Option (Chunk B)} (hloop : p.loop = .sendInl recv) (hq : p.queue ≠ []) :
      Effect flag socket p .drain (p.takeBlock recv)
  | wrote {block : List Byte} {recv : Option (Chunk B)} {n : ℕ}
      (hloop : p.loop = .writing block recv) (hsocket : socket = some n) :
      Effect flag socket p (.uvWrite 0) { p with
        inflight := p.inflight + 1
        writes := p.writes ++ [(n, block)]
        loop := .sendInl recv }
  | failed {block : List Byte} {recv : Option (Chunk B)} {res : ℤ}
      (hloop : p.loop = .writing block recv) (hres : res ≠ 0) :
      Effect flag socket p (.uvWrite res) { p with loop := .sendInl recv }
  | completed {i n : ℕ} {status : ℤ} (hloop : p.loop = .idle) (hinflight : p.inflight = n + 1) :
      Effect flag socket p (.afterSend i status)
        { p with inflight := n, loop := if status < 0 then .idle else .sendInl none }
  | recv {c : Chunk B} (hloop : p.loop = .idle) :
      Effect flag socket p (.recv c) { p with loop := .sendInl (some c) }

/-- **What a step of the pipe can do.** -/
theorem effect_of_step {flag : Bool} {socket : Option ℕ} {e : CTCPClient.Event B}
    (h : p.step flag socket e = some q) : Effect flag socket p e q := by
  cases e with
  | call t data =>
    simp only [step, call] at h
    split at h
    · cases h
    · next hs =>
      split_ifs at h with hdata <;> cases h
      · exact .same _
      · exact .call hs hdata
  | send t =>
    simp only [step, sendStep] at h
    split at h
    · cases h
    · next s hs =>
      split at h
      · next hpc =>
        cases h
        exact .check hs hpc
      · next hpc =>
        cases h
        exact .write hs hpc
      · next hpc =>
        cases h
        exact .signal hs hpc
  | userClose =>
    cases h
    exact .userClose
  | async =>
    simp only [step] at h
    split at h
    · next hloop hasync =>
      cases h
      exact .async hloop hasync
    · cases h
  | drain =>
    simp only [step, drain] at h
    split at h
    · next recv hloop =>
      split_ifs at h with hq <;> cases h
      · exact .empty hloop hq
      · exact .take hloop hq
    · cases h
  | uvWrite res =>
    simp only [step, uvWrite] at h
    split at h
    · next block recv hloop =>
      split_ifs at h with hres
      · subst hres
        obtain ⟨n, hn, rfl⟩ := Option.map_eq_some_iff.1 h
        exact .wrote hloop hn
      · cases h
        exact .failed hloop hres
    · cases h
  | afterSend i status =>
    simp only [step] at h
    split at h
    · next hloop =>
      simp only [afterSend] at h
      split at h
      · cases h
      · next n hinflight =>
        cases h
        exact .completed hloop hinflight
    · cases h
  | recv c =>
    simp only [step] at h
    split at h
    · next hloop =>
      cases h
      exact .recv hloop
    · cases h
  | recvError | closed | timer r | connected status readStart =>
    simp only [step] at h
    split at h <;> cases h
    exact .same _

/-! ## Threads in `Send` -/

/-- The next portion of a message that is short enough for an `int`. -/
theorem portion_eq {s : Sender B} {queued : ℕ} (hle : s.iret ≤ s.data.bytes.length)
    (hlen : s.data.bytes.length < 2 ^ 31) (hq : queued ≤ bufferSize) :
    s.portion queued = min (s.data.bytes.length - s.iret) (bufferSize - queued) := by
  have hsize : B.toSize ((s.data.bytes.length : ℤ) - s.iret) = s.data.bytes.length - s.iret :=
    Outbound.toSize_sub hle s.data.size
  have hint : toInt ((s.data.bytes.length - s.iret : ℕ) : ℤ) = (s.data.bytes.length - s.iret : ℕ) :=
    toInt_eq (by omega) (by omega)
  unfold Sender.portion
  rw [hsize, hint]
  omega

theorem portion_le {s : Sender B} {queued : ℕ} (hle : s.iret ≤ s.data.bytes.length) :
    s.iret + s.portion queued ≤ s.data.bytes.length := by
  have hsize : B.toSize ((s.data.bytes.length : ℤ) - s.iret) = s.data.bytes.length - s.iret :=
    Outbound.toSize_sub hle s.data.size
  unfold Sender.portion
  rw [hsize]
  rcases le_or_gt (toInt (s.data.bytes.length - s.iret : ℕ)) 0 with h₀ | h₀
  · omega
  · have := Outbound.toInt_le h₀
    omega

end Pipe

/-! ## The outgoing side refines the pipe -/

namespace Outbound

variable {B : Build} {o : Outbound B}

/-- The loop thread without its write parameter. -/
def pipeLoop : Loop B → PipeLoop B
  | .idle => .idle
  | .sendInl recv => .sendInl recv
  | .writing p recv => .writing p.payload recv

/-- The outgoing side without its buffers. -/
def pipe (o : Outbound B) : Pipe B where
  queue := o.queue
  asyncPending := o.asyncPending
  senders := o.senders
  inflight := o.inflight.length
  loop := pipeLoop o.loop
  calls := o.calls
  accepted := o.accepted
  taken := o.taken
  writes := o.writes

@[simp] theorem pipe_senders : o.pipe.senders = o.senders := rfl

@[simp] theorem pipe_loop : o.pipe.loop = pipeLoop o.loop := rfl

@[simp] theorem pipe_asyncPending : o.pipe.asyncPending = o.asyncPending := rfl

@[simp] theorem pipe_queue : o.pipe.queue = o.queue := rfl

theorem idle_of_pipe (h : o.pipe.loop = .idle) : o.loop = .idle := by
  cases hl : o.loop with
  | idle => rfl
  | sendInl recv | writing p recv => simp only [pipe_loop, hl, pipeLoop, reduceCtorEq] at h

theorem pipe_held : o.pipe.held = o.held := by
  cases hloop : o.loop <;> simp only [Pipe.held, held, pipe_loop, hloop, pipeLoop]

theorem pipe_start (memory : List.Vector Byte bufferSize) :
    (start memory : Outbound B).pipe = .start := by
  have haccepted : [] = (start memory : Outbound B).queue := (inv_start (B := B) memory).accepted
  show Pipe.mk (start memory : Outbound B).queue _ _ _ _ _ _ _ _ = _
  rw [← haccepted]
  rfl

theorem call_pipe (t : ℕ) (data : Chunk B) : (o.call t data).map pipe = o.pipe.call t data := by
  cases hs : o.senders t with
  | some s => simp only [Outbound.call, Pipe.call, pipe_senders, hs, Option.map_none]
  | none =>
    simp only [Outbound.call, Pipe.call, pipe_senders, hs]
    split_ifs <;> rfl

theorem Inv.sendStep_pipe (h : o.Inv) (flag : Bool) (t : ℕ) :
    (o.sendStep flag t).map pipe = o.pipe.sendStep flag t := by
  cases hs : o.senders t with
  | none => simp only [Outbound.sendStep, Pipe.sendStep, pipe_senders, hs, Option.bind_eq_bind,
      Option.bind_none, Option.map_none]
  | some s =>
    cases hpc : s.pc with
    | check | signal =>
      simp only [Outbound.sendStep, Pipe.sendStep, pipe_senders, hs, hpc, Option.bind_eq_bind,
        Option.bind_some, Option.map_some]
      rfl
    | write =>
      obtain ⟨ring, hwrite, -, -, hholds⟩ := h.sendWrite hs
      simp only [Outbound.sendStep, Pipe.sendStep, pipe_senders, hs, hpc, Option.bind_eq_bind,
        Option.bind_some, hwrite, Option.map_some]
      show some (Pipe.mk ring.content _ _ _ _ _ _ _ _) = _
      rw [hholds.content_eq]
      rfl

theorem Inv.takeBlock_pipe (h : o.Inv) (recv : Option (Chunk B)) :
    (o.takeBlock recv).map pipe = some (o.pipe.takeBlock recv) := by
  obtain ⟨ring, p, rest, htake, -, -, -, hpayload, hholds⟩ := h.takeBlock recv
  rw [htake, Option.map_some, Option.some.injEq]
  show Pipe.mk ring.content _ _ _ (.writing p.payload recv) _ _ (o.taken ++ p.payload) _ = _
  rw [hholds.content_eq, hpayload]
  rfl

theorem uvWrite_pipe (conn : ℕ) (res : ℤ) :
    (o.uvWrite conn res).map pipe = o.pipe.uvWrite (some conn) res := by
  cases hloop : o.loop with
  | idle => simp only [Outbound.uvWrite, Pipe.uvWrite, pipe_loop, hloop, pipeLoop, Option.map_none]
  | sendInl recv =>
    simp only [Outbound.uvWrite, Pipe.uvWrite, pipe_loop, hloop, pipeLoop, Option.map_none]
  | writing p recv =>
    simp only [Outbound.uvWrite, Pipe.uvWrite, pipe_loop, hloop, pipeLoop]
    split_ifs
    · show some (Pipe.mk _ _ _ (o.inflight ++ [p]).length _ _ _ _ _) = _
      rw [List.length_append]
      rfl
    · rfl

theorem recycle_pipe (p : WriteParam) : (o.recycle p).pipe = o.pipe := by
  unfold recycle
  split_ifs <;> rfl

theorem afterSend_pipe {i : ℕ} {status : ℤ} {o' : Outbound B} (hidle : o.loop = .idle)
    (h : o.afterSend i status = some o') : o.pipe.afterSend status = some o'.pipe := by
  obtain ⟨p, hp, h⟩ := Option.bind_eq_some_iff.1 h
  have hi : i < o.inflight.length := (List.getElem?_eq_some_iff.1 hp).1
  obtain ⟨n, hn⟩ := Nat.exists_eq_succ_of_ne_zero (Nat.ne_zero_of_lt hi)
  have herase : (o.inflight.eraseIdx i).length = n := by
    rw [List.length_eraseIdx_of_lt hi, hn, Nat.succ_sub_one]
  have hmid : ({ o with inflight := o.inflight.eraseIdx i }.recycle p).pipe =
      { o.pipe with inflight := n, loop := .idle } := by
    rw [recycle_pipe, ← herase, pipe, hidle]
    rfl
  have hinflight : o.pipe.inflight = n + 1 := hn
  simp only [Pipe.afterSend, hinflight]
  split_ifs at h ⊢ <;> cases h
  · rw [← hmid]
  · show _ = some { ({ o with inflight := o.inflight.eraseIdx i }.recycle p).pipe with
      loop := .sendInl none }
    rw [hmid]

end Outbound

namespace CTCPClient

variable {B : Build} {s t : CTCPClient B} {e : Event B}

/-- **Every step of the client is a step of the pipe.** -/
theorem step_pipe (h : s.step e = some t) (hs : s.out.Inv) :
    s.out.pipe.step s.isUserAskForClosed s.tcphandle.socket e = some t.out.pipe := by
  have hout := step_out h
  cases e with
  | call t data =>
    have hcall := Outbound.call_pipe (o := s.out) t data
    rw [hout] at hcall
    exact hcall.symm
  | send t =>
    have hsend := hs.sendStep_pipe s.isUserAskForClosed t
    rw [hout] at hsend
    exact hsend.symm
  | userClose =>
    rw [hout]
    rfl
  | async =>
    obtain ⟨hidle, hpending, ⟨hflag, hout⟩ | ⟨hflag, hout⟩⟩ := hout <;>
    simp only [Pipe.step, Outbound.pipe_loop, Outbound.pipe_asyncPending, hidle, hpending, hflag,
      Outbound.pipeLoop, hout] <;>
    rfl
  | drain =>
    obtain ⟨recv, hloop, ⟨hempty, hout⟩ | ⟨hempty, hout⟩⟩ := hout
    · have hq : s.out.pipe.queue = [] := (CPodCircularBuffer.empty_iff hs.ring).1 hempty
      simp only [Pipe.step, Pipe.drain, Outbound.pipe_loop, hloop, Outbound.pipeLoop, if_pos hq, hout]
      rfl
    · have hq : s.out.pipe.queue ≠ [] := fun hq => by
        rw [(CPodCircularBuffer.empty_iff hs.ring).2 hq] at hempty
        cases hempty
      have htake := hs.takeBlock_pipe recv
      rw [hout, Option.map_some] at htake
      simp only [Pipe.step, Pipe.drain, Outbound.pipe_loop, hloop, Outbound.pipeLoop, if_neg hq]
      exact htake.symm
  | uvWrite res =>
    obtain ⟨conn, hout, hsock⟩ := hout
    have hwrite := Outbound.uvWrite_pipe (o := s.out) conn res
    rw [hout, Option.map_some] at hwrite
    rcases hsock with hsock | ⟨hsock, hres⟩
    · rw [hsock]
      exact hwrite.symm
    · rw [hsock]
      show s.out.pipe.uvWrite none res = _
      rw [hwrite]
      simp only [Pipe.uvWrite, hres, if_false]
  | afterSend i status =>
    simp only [Pipe.step, Outbound.pipe_loop, hout.1, Outbound.pipeLoop]
    exact Outbound.afterSend_pipe hout.1 hout.2
  | recv c =>
    obtain ⟨hidle, hout⟩ := hout
    simp only [Pipe.step, Outbound.pipe_loop, hidle, Outbound.pipeLoop, hout]
    rfl
  | recvError | closed | timer r | connected status readStart =>
    obtain ⟨hidle, hout⟩ := hout
    simp only [Pipe.step, Outbound.pipe_loop, hidle, Outbound.pipeLoop, hout]

/-! ## The client does what the pipe can do -/

/-- A step of the pipe while the client stays connected or not, and does not receive. -/
def flow (socket : Option ℕ) (p : Pipe B) : Event B → Option (Pipe B)
  | .call t data => p.call t data
  | .send t => p.sendStep false t
  | .async => p.step false socket .async
  | .drain =>
    match p.loop with
    | .sendInl none => p.drain
    | _ => none
  | .uvWrite res => p.uvWrite socket res
  | .afterSend 0 status => p.step false socket (.afterSend 0 status)
  | _ => none

theorem step_of_flow {socket : Option ℕ} {p q : Pipe B} (h : flow socket p e = some q) :
    p.step false socket e = some q := by
  unfold flow at h
  split at h
  · exact h
  · exact h
  · exact h
  · split at h
    · exact h
    · cases h
  · exact h
  · exact h
  · cases h

/-- The client can take a step of the pipe when the user has not asked for the close. -/
theorem callback_of_flow {p : Pipe B} (hs : s.out.Inv) (hflag : s.isUserAskForClosed = false)
    (hloop : s.loopCloses = 0) (h : flow s.tcphandle.socket s.out.pipe e = some p) :
    ∃ o, s.callback e = some { s with out := o } := by
  cases e with
  | call t data =>
    have hcall : (s.out.call t data).map Outbound.pipe = some p := by rwa [Outbound.call_pipe]
    obtain ⟨o, ho, -⟩ := Option.map_eq_some_iff.1 hcall
    exact ⟨o, by rw [callback, ho, Option.map_some]⟩
  | send t =>
    have hsend : (s.out.sendStep false t).map Outbound.pipe = some p := by rwa [hs.sendStep_pipe]
    obtain ⟨o, ho, -⟩ := Option.map_eq_some_iff.1 hsend
    exact ⟨o, by rw [callback, hflag, ho, Option.map_some]⟩
  | async =>
    simp only [flow, Pipe.step, Outbound.pipe_loop, Outbound.pipe_asyncPending] at h
    cases hl : s.out.loop with
    | idle =>
      cases hasync : s.out.asyncPending with
      | true =>
        refine ⟨{ s.out with asyncPending := false, loop := .sendInl none }, ?_⟩
        simp only [callback, idle_iff, hl, hasync, hloop, and_self, if_true, asyncCloseCb, hflag,
          Bool.false_eq_true, if_false]
      | false => simp only [hl, hasync, Outbound.pipeLoop, reduceCtorEq] at h
    | sendInl recv | writing p recv => simp only [hl, Outbound.pipeLoop, reduceCtorEq] at h
  | drain =>
    simp only [flow, Outbound.pipe_loop] at h
    cases hl : s.out.loop with
    | sendInl recv =>
      cases recv with
      | none =>
        obtain ⟨ring, p, rest, htake, -⟩ := hs.takeBlock none
        simp only [callback, drain, hl]
        split_ifs
        · exact ⟨_, rfl⟩
        · exact ⟨_, by rw [htake]; rfl⟩
      | some c => simp only [hl, Outbound.pipeLoop, reduceCtorEq] at h
    | idle | writing p recv => simp only [hl, Outbound.pipeLoop, reduceCtorEq] at h
  | uvWrite res =>
    have hres : ¬(res = 0 ∧ s.tcphandle.socket = none) := by
      rintro ⟨rfl, hsock⟩
      rw [hsock] at h
      simp only [flow, Pipe.uvWrite] at h
      split at h <;> cases h
    cases hl : s.out.loop with
    | writing p recv =>
      simp only [callback, uvWrite, if_neg hres, Outbound.uvWrite, hl]
      split_ifs <;> exact ⟨_, rfl⟩
    | idle | sendInl recv =>
      simp only [flow, Pipe.uvWrite, Outbound.pipe_loop, hl, Outbound.pipeLoop, reduceCtorEq] at h
  | afterSend i status =>
    cases i with
    | succ i => cases h
    | zero =>
      simp only [flow, Pipe.step, Outbound.pipe_loop] at h
      cases hl : s.out.loop with
      | sendInl recv | writing p recv => simp only [hl, Outbound.pipeLoop, reduceCtorEq] at h
      | idle =>
        cases hin : s.out.inflight with
        | nil =>
          have hzero : s.out.pipe.inflight = 0 := by
            show s.out.inflight.length = 0
            rw [hin, List.length_nil]
          simp only [hl, Outbound.pipeLoop, Pipe.afterSend, hzero, reduceCtorEq] at h
        | cons w rest =>
          simp only [callback, idle_iff, hl, if_true, Outbound.afterSend, hin,
            List.getElem?_cons_zero, Option.bind_eq_bind, Option.bind_some]
          split_ifs <;> exact ⟨_, rfl⟩
  | userClose | recv c | recvError | closed | timer r | connected status readStart => cases h

/-- A step of the pipe is that of the client. -/
theorem step_eq_of_flow {p : Pipe B} (hs : s.out.Inv) (hcrashed : s.crashed = false)
    (hflag : s.isUserAskForClosed = false) (hloop : s.loopCloses = 0)
    (h : flow s.tcphandle.socket s.out.pipe e = some p) :
    ∃ o, s.step e = some { s with out := o } ∧ o.Inv ∧ o.pipe = p := by
  obtain ⟨o, ho⟩ := callback_of_flow hs hflag hloop h
  have hstep : s.step e = some { s with out := o } := by
    rw [step, if_neg (by rw [hcrashed]; exact Bool.false_ne_true)]
    exact ho
  have hpipe := step_pipe hstep hs
  rw [hflag, step_of_flow h] at hpipe
  exact ⟨o, hstep, step_inv hstep hs, (Option.some.inj hpipe).symm⟩

/-- **What the pipe can do while nothing else happens, the client can do.** -/
theorem exec_flow {p : Pipe B} {es : List (Event B)} (hs : s.out.Inv) (hcrashed : s.crashed = false)
    (hflag : s.isUserAskForClosed = false) (hloop : s.loopCloses = 0)
    (h : exec (flow s.tcphandle.socket) s.out.pipe es = some p) :
    ∃ o, exec step s es = some { s with out := o } ∧ o.Inv ∧ o.pipe = p := by
  induction es generalizing s with
  | nil =>
    cases h
    exact ⟨s.out, rfl, hs, rfl⟩
  | cons e es ih =>
    obtain ⟨q, hq, h⟩ := Option.bind_eq_some_iff.1 h
    obtain ⟨o, hstep, hinv, rfl⟩ := step_eq_of_flow hs hcrashed hflag hloop hq
    rw [exec_cons hstep]
    exact ih (s := { s with out := o }) hinv hcrashed hflag hloop h

/-- What holds along a run of the pipe holds along that of the client. -/
theorem along_flow {ok : Pipe B → Event B → Prop} {p : Pipe B} {es : List (Event B)} (hs : s.out.Inv)
    (hcrashed : s.crashed = false) (hflag : s.isUserAskForClosed = false) (hloop : s.loopCloses = 0)
    (h : exec (flow s.tcphandle.socket) s.out.pipe es = some p)
    (hok : Along (flow s.tcphandle.socket) ok s.out.pipe es) :
    Along step (fun s e => ok s.out.pipe e) s es := by
  induction es generalizing s with
  | nil => trivial
  | cons e es ih =>
    obtain ⟨q, hq, h⟩ := Option.bind_eq_some_iff.1 h
    obtain ⟨o, hstep, hinv, rfl⟩ := step_eq_of_flow hs hcrashed hflag hloop hq
    obtain ⟨hhere, hrest⟩ := hok _ hq
    refine .cons hstep hhere ?_
    exact ih (s := { s with out := o }) hinv hcrashed hflag hloop h hrest

/-! ## Schedules -/

section Schedules

variable {socket : Option ℕ} {p : Pipe B} {r : ℕ} {data : Chunk B} {s : Sender B}

/-- A thread sends a message that fits into the queue. -/
def sending (t : ℕ) (data : Chunk B) : List (Event B) :=
  [.call t data, .send t, .send t, .send t]

/-- The loop thread wakes up and empties the queue by one `uv_write`. -/
def flushing (res : ℤ) : List (Event B) := [.async, .drain, .uvWrite res, .drain]

theorem exec_call (hs : p.senders r = none) (hdata : data.bytes ≠ []) :
    exec (flow socket) p [.call r data] = some { p with
      asyncPending := true
      senders := Function.update p.senders r (some ⟨p.calls.length, data, 0, .check⟩)
      calls := p.calls ++ [data] } := by
  simp only [exec, flow, Pipe.call, hs, if_neg hdata, Option.bind_some]

/-- A pass of the loop in `Send`. -/
theorem exec_portion (hs : p.senders r = some s) (hpc : s.pc = .check) :
    exec (flow socket) p [.send r, .send r] = some (p.sendWrite r s) := by
  simp only [exec, flow, Pipe.sendStep, hs, hpc, Bool.false_eq_true, if_false, Option.bind_some,
    Function.update_self, Pipe.sendWrite, Function.update_idem]
  rfl

/-- A pass that writes the rest of the message. -/
theorem exec_finishing (hs : p.senders r = some s) (hpc : s.pc = .check)
    (hle : s.iret ≤ s.data.bytes.length) (hshort : s.data.bytes.length < 2 ^ 31)
    (hfit : p.queue.length + s.rest.length ≤ bufferSize) :
    exec (flow socket) p [.send r, .send r] = some { p with
      queue := p.queue ++ s.rest
      senders := Function.update p.senders r
        (some { s with iret := s.data.bytes.length, pc := .signal })
      accepted := p.accepted ++ s.rest.map (Prod.mk s.call) } := by
  have hrest : s.rest.length = s.data.bytes.length - s.iret := List.length_drop
  have hportion : s.portion p.queue.length = s.rest.length := by
    rw [Pipe.portion_eq hle hshort (by omega)]
    omega
  have hiret : s.iret + s.rest.length = s.data.bytes.length := by omega
  rw [exec_portion hs hpc, Pipe.sendWrite, hportion, Sender.advance, hiret,
    if_neg (lt_irrefl _), List.take_length]

/-- The last pass and the last `uv_async_send`. -/
theorem exec_returning (hs : p.senders r = some s) (hpc : s.pc = .check)
    (hle : s.iret ≤ s.data.bytes.length) (hshort : s.data.bytes.length < 2 ^ 31)
    (hfit : p.queue.length + s.rest.length ≤ bufferSize) :
    exec (flow socket) p ([.send r, .send r] ++ [.send r]) = some { p with
      queue := p.queue ++ s.rest
      asyncPending := true
      senders := Function.update p.senders r none
      accepted := p.accepted ++ s.rest.map (Prod.mk s.call) } := by
  rw [exec_append_of_exec (exec_finishing hs hpc hle hshort hfit)]
  simp only [exec, flow, Pipe.sendStep, Function.update_self, Option.bind_some, Function.update_idem]

theorem exec_sending (hs : p.senders r = none) (hdata : data.bytes ≠ [])
    (hfit : p.queue.length + data.bytes.length ≤ bufferSize) :
    exec (flow socket) p (sending r data) = some { p with
      queue := p.queue ++ data.bytes
      asyncPending := true
      calls := p.calls ++ [data]
      accepted := p.accepted ++ data.bytes.map (Prod.mk p.calls.length) } := by
  have hB := bufferSize_eq
  have hshort : data.bytes.length < 2 ^ 31 := by omega
  have hsenders : Function.update p.senders r none = p.senders := by rw [← hs, Function.update_eq_self]
  rw [sending, show [Event.call r data, .send r, .send r, .send r] =
    [.call r data] ++ ([.send r, .send r] ++ [.send r]) from rfl,
    exec_append_of_exec (exec_call hs hdata),
    exec_returning (s := ⟨p.calls.length, data, 0, .check⟩)
      (Function.update_self ..) rfl (Nat.zero_le _) hshort (by exact hfit)]
  simp only [Function.update_idem, hsenders, Sender.rest, List.drop_zero]

/-- A pass that fills the empty queue with a part of the rest of the message. -/
theorem exec_filling (hs : p.senders r = some s) (hpc : s.pc = .check) (hq : p.queue = [])
    (hlen : s.iret + bufferSize < s.data.bytes.length) (hshort : s.data.bytes.length < 2 ^ 31) :
    exec (flow socket) p [.send r, .send r] = some { p with
      queue := s.rest.take bufferSize
      senders := Function.update p.senders r (some { s with iret := s.iret + bufferSize })
      accepted := p.accepted ++ (s.rest.take bufferSize).map (Prod.mk s.call) } := by
  have hportion : s.portion p.queue.length = bufferSize := by
    rw [Pipe.portion_eq (by omega) hshort (by rw [hq]; exact Nat.zero_le _), hq, List.length_nil]
    omega
  rw [exec_portion hs hpc, Pipe.sendWrite, hportion, Sender.advance, if_pos hlen, hq, ← hpc,
    List.nil_append]

/-- The completion of a write finds the queue empty. -/
theorem exec_completed {n : ℕ} (hloop : p.loop = .idle) (hinflight : p.inflight = n + 1)
    (hq : p.queue = []) :
    exec (flow socket) p [.afterSend 0 0, .drain] = some { p with inflight := n, loop := .idle } := by
  simp only [exec, flow, Pipe.step, hloop, Pipe.afterSend, hinflight, lt_irrefl, if_false,
    Option.bind_some, Pipe.drain, hq, if_true]

theorem exec_flushing {n : ℕ} (hloop : p.loop = .idle) (hasync : p.asyncPending = true)
    (hq : p.queue ≠ []) (hlen : p.queue.length ≤ bufferSize) :
    exec (flow (some n)) p (flushing 0) = some { p with
      queue := []
      asyncPending := false
      inflight := p.inflight + 1
      loop := .idle
      taken := p.taken ++ p.queue
      writes := p.writes ++ [(n, p.queue)] } := by
  simp only [exec, flushing, flow, Pipe.step, hloop, hasync, Bool.false_eq_true, if_false,
    Option.bind_some, Pipe.drain, hq, Pipe.takeBlock, Pipe.uvWrite, if_true, Option.map_some,
    List.drop_eq_nil_of_le hlen, List.take_of_length_le hlen]

/-- The only `uv_write` fails. -/
theorem exec_flushing_failed {res : ℤ} (hloop : p.loop = .idle) (hasync : p.asyncPending = true)
    (hq : p.queue ≠ []) (hlen : p.queue.length ≤ bufferSize) (hres : res ≠ 0) :
    exec (flow socket) p (flushing res) = some { p with
      queue := []
      asyncPending := false
      loop := .idle
      taken := p.taken ++ p.queue } := by
  simp only [exec, flushing, flow, Pipe.step, hloop, hasync, Bool.false_eq_true, if_false,
    Option.bind_some, Pipe.drain, hq, Pipe.takeBlock, Pipe.uvWrite, hres, if_true,
    List.drop_eq_nil_of_le hlen, List.take_of_length_le hlen]

end Schedules

end CTCPClient

end SimpleUv
