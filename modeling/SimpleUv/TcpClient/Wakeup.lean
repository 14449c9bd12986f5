import SimpleUv.TcpClient.Control
import SimpleUv.TcpClient.Stream

/-!
# Wake-ups of the loop thread

`Send` wakes the loop thread up before its first write to the ring buffer and after its last one. A
message that needs more than two passes of its loop can fill the ring buffer when the loop thread has
nothing left to do, and then waits for ever (`lostWakeup`). This happens exactly when a pass that
finds no drain to come does not write the rest of the message (`awake_iff`).
-/

namespace SimpleUv

open Foundations

/-- A drain is still to come: the wake-up is pending, `send_inl` is running or a write is in flight. -/
def Outbound.DrainComing {B : Build} (o : Outbound B) : Prop :=
  o.asyncPending = true ∨ o.loop ≠ .idle ∨ o.inflight ≠ []

/-- When the thread waits in `Send` with bytes in the ring buffer, a drain is still to come. -/
def Outbound.Awake {B : Build} (r : ℕ) (o : Outbound B) : Prop :=
  ∀ s, o.senders r = some s → s.iret < s.data.bytes.length → o.queue ≠ [] → o.DrainComing

namespace Pipe

variable {B : Build} {p q : Pipe B} {socket : Option ℕ} {e : CTCPClient.Event B} {r : ℕ}

/-- A drain is still to come. -/
def DrainComing (p : Pipe B) : Prop :=
  p.asyncPending = true ∨ p.loop ≠ .idle ∨ p.inflight ≠ 0

/-- A thread that waits with bytes in the queue waits for a drain to come. -/
def Awake (r : ℕ) (p : Pipe B) : Prop :=
  ∀ s, p.senders r = some s → s.iret < s.data.bytes.length → p.queue ≠ [] → p.DrainComing

/-- When no drain is to come, the next write takes the rest of the message, or nothing when the queue
is empty. -/
def PassFits (p : Pipe B) (e : CTCPClient.Event B) : Prop :=
  ∀ t s, e = .send t → p.senders t = some s → s.pc = .write → p.DrainComing ∨
    s.iret + s.portion p.queue.length = s.data.bytes.length ∨
    s.portion p.queue.length = 0 ∧ p.queue = []

/-- The events of one thread in `Send` and of the loop thread, without a close, a failure, or data from
the server. -/
def Undisturbed (r : ℕ) : CTCPClient.Event B → Prop
  | .call t _ | .send t => t = r
  | .async | .drain => True
  | .uvWrite res => res = 0
  | .afterSend _ status => 0 ≤ status
  | .connected status _ => status = 0
  | _ => False

theorem Awake.of_coming (h : q.DrainComing) : q.Awake r := fun _ _ _ _ => h

/-- **A pass that fits keeps the thread awake.** -/
theorem Awake.effect (h : p.Awake r) (hr : Undisturbed r e) (hfits : p.PassFits e)
    (he : Effect false socket p e q) : q.Awake r := by
  cases he with
  | same => exact h
  | call hs hdata => exact .of_coming (.inl rfl)
  | @check t s hs hpc =>
    obtain rfl : t = r := hr
    intro s' hs' hiret hq
    change Function.update p.senders t (some _) t = some s' at hs'
    rw [Function.update_self] at hs'
    cases hs'
    exact h s hs hiret hq
  | @write t s hs hpc =>
    obtain rfl : t = r := hr
    intro s' hs' hiret hq
    change Function.update p.senders t (some _) t = some s' at hs'
    rw [Function.update_self] at hs'
    cases hs'
    rcases hfits t s rfl hs hpc with hcoming | hrest | ⟨hzero, hnil⟩
    · exact hcoming
    · exact absurd hrest hiret.ne
    · refine absurd ?_ hq
      show p.queue ++ s.rest.take (s.portion p.queue.length) = []
      rw [hzero, hnil, List.take_zero, List.append_nil]
  | signal hs hpc => exact .of_coming (.inl rfl)
  | userClose => exact .of_coming (.inl rfl)
  | async hloop hasync => exact .of_coming (.inr (.inl nofun))
  | empty hloop hq => exact fun s hs hiret hne => absurd hq hne
  | take hloop hq => exact .of_coming (.inr (.inl nofun))
  | wrote hloop hsocket => exact .of_coming (.inr (.inl nofun))
  | failed hloop hres => exact .of_coming (.inr (.inl nofun))
  | @completed i n status hloop hinflight =>
    refine .of_coming (.inr (.inl ?_))
    show (if status < 0 then PipeLoop.idle else .sendInl none) ≠ .idle
    rw [if_neg (not_lt.2 hr)]
    nofun
  | recv hloop => exact .of_coming (.inr (.inl nofun))

/-- **A pass that does not fit loses the wake-up.** -/
theorem not_awake (hiret : ∀ t s, p.senders t = some s → s.iret ≤ s.data.bytes.length)
    (hr : Undisturbed r e) (hfits : ¬ p.PassFits e) (hstep : p.step false socket e = some q) :
    ¬ q.Awake r := by
  unfold PassFits at hfits
  push Not at hfits
  obtain ⟨t, s, rfl, hs, hpc, hcoming, hrest, hnil⟩ := hfits
  obtain rfl : t = r := hr
  simp only [step, sendStep, hs, hpc, Option.some.injEq] at hstep
  subst hstep
  have hle : s.iret + s.portion p.queue.length ≤ s.data.bytes.length :=
    portion_le (hiret t s hs)
  intro hawake
  have hs' : (p.sendWrite t s).senders t = some (s.advance (s.portion p.queue.length)) :=
    Function.update_self t _ p.senders
  refine hcoming (hawake _ hs' (lt_of_le_of_ne hle hrest) fun hq => ?_)
  replace hq : p.queue ++ s.rest.take (s.portion p.queue.length) = [] := hq
  obtain ⟨hqueue, htake⟩ := List.append_eq_nil_iff.1 hq
  refine hnil ?_ hqueue
  have hlen := congrArg List.length htake
  rw [List.length_take, Sender.rest, List.length_drop, List.length_nil] at hlen
  omega

end Pipe

namespace Outbound

variable {B : Build} {o : Outbound B} {r : ℕ}

theorem pipe_drainComing : o.pipe.DrainComing ↔ o.DrainComing := by
  have hloop : o.pipe.loop ≠ .idle ↔ o.loop ≠ .idle :=
    not_congr ⟨idle_of_pipe, fun h => by rw [pipe_loop, h]; rfl⟩
  have hinflight : o.pipe.inflight ≠ 0 ↔ o.inflight ≠ [] :=
    not_congr List.length_eq_zero_iff
  exact or_congr Iff.rfl (or_congr hloop hinflight)

/-- A drain that is to come does not get lost by what a thread does in `Send`. -/
theorem DrainComing.sendStep {o' : Outbound B} {flag : Bool} (h : o.DrainComing)
    (hstep : o.sendStep flag r = some o') : o'.DrainComing := by
  obtain ⟨s, -, hstep⟩ := Option.bind_eq_some_iff.1 hstep
  split at hstep
  · cases hstep
    exact h
  · simp only [sendWrite, Option.bind_eq_bind] at hstep
    obtain ⟨w, -, hstep⟩ := Option.bind_eq_some_iff.1 hstep
    cases hstep
    exact h
  · cases hstep
    exact .inl rfl

theorem pipe_awake : o.pipe.Awake r ↔ o.Awake r :=
  forall₄_congr fun _ _ _ _ => pipe_drainComing

end Outbound

namespace CTCPClient

variable {B : Build} {s v : CTCPClient B} {e : Event B} {r : ℕ}

/-- When no drain is to come, the next write to the ring buffer takes the rest of the message, or
nothing when the ring buffer is empty. -/
def PassFits (s : CTCPClient B) (e : Event B) : Prop :=
  ∀ t p, e = .send t → s.out.senders t = some p → p.pc = .write → s.out.DrainComing ∨
    p.iret + p.portion s.out.queue.length = p.data.bytes.length ∨
    p.portion s.out.queue.length = 0 ∧ s.out.queue = []

theorem pipe_passFits : s.out.pipe.PassFits e ↔ s.PassFits e :=
  forall₅_congr fun _ _ _ _ _ => or_congr Outbound.pipe_drainComing Iff.rfl

/-- The invariant of the runs of one thread in `Send`. -/
structure Attentive (r : ℕ) (s : CTCPClient B) : Prop where
  sound : s.Sound
  flag : s.isUserAskForClosed = false
  awake : s.out.Awake r

/-- **A waiting thread is woken up** exactly as long as its passes fit. -/
theorem awake_iff (r : ℕ) (memory : List.Vector Byte bufferSize) (u : Uninit) (es : List (Event B))
    (hes : ∀ e ∈ es, Pipe.Undisturbed r e) :
    Always step (fun s => s.out.Awake r) (start B memory u) es ↔
      Along step PassFits (start B memory u) es := by
  refine always_iff_along (I := Attentive r) ?_ ?_ (fun s h => h.awake)
    ⟨sound_start memory u, rfl, fun s hs => nomatch hs⟩ hes
  · intro s e t h he hfits hstep
    have hpipe := step_pipe hstep h.sound.inv
    rw [h.flag] at hpipe
    refine ⟨h.sound.step hstep, flag_of_step h.flag ?_ hstep, ?_⟩
    · rintro rfl
      exact he
    · exact Outbound.pipe_awake.1 ((Outbound.pipe_awake.2 h.awake).effect he
        (pipe_passFits.2 hfits) (Pipe.effect_of_step hpipe))
  · intro s e t h he hfits hstep hawake
    have hpipe := step_pipe hstep h.sound.inv
    rw [h.flag] at hpipe
    exact Pipe.not_awake h.sound.inv.iret_le he (fun hp => hfits (pipe_passFits.1 hp)) hpipe
      (Outbound.pipe_awake.2 hawake)

/-! ## A thread that waits -/

/-- A message that fills the ring buffer twice, and has one more byte. -/
def longMessage : Chunk zeroBuild :=
  ⟨.replicate 20481 0, by rw [List.length_replicate]; decide⟩

theorem length_longMessage : longMessage.bytes.length = 20481 := List.length_replicate

/-- The thread that sends it, with `n` bytes written. -/
def longSender (n : ℕ) : Sender zeroBuild := ⟨0, longMessage, n, .check⟩

theorem longSender_lt (n : ℕ) (hn : n ≤ bufferSize) :
    (longSender n).iret + bufferSize < (longSender n).data.bytes.length := by
  have hlen := length_longMessage
  have hB := bufferSize_eq
  show n + bufferSize < longMessage.bytes.length
  omega

theorem longSender_fills (n : ℕ) (hn : n ≤ bufferSize) :
    ((longSender n).rest.take bufferSize).length = bufferSize := by
  have hlt := longSender_lt n hn
  rw [List.length_take, Sender.rest, List.length_drop]
  omega

theorem longSender_ne_nil (n : ℕ) (hn : n ≤ bufferSize) : (longSender n).rest.take bufferSize ≠ [] :=
  List.ne_nil_of_length_pos (by rw [longSender_fills n hn]; decide)

theorem longMessage_short : longMessage.bytes.length < 2 ^ 31 := by
  rw [length_longMessage]
  norm_num

/-- The thread fills the ring buffer, and the loop thread empties it. -/
theorem exec_emptied : ∃ p, exec (flow (some 0)) Pipe.start
      ([.call 0 longMessage] ++ ([.send 0, .send 0] ++ flushing 0)) = some p ∧
    p.senders 0 = some (longSender (0 + bufferSize)) ∧ p.queue = [] ∧ p.asyncPending = false ∧
    p.loop = .idle ∧ p.inflight = 1 := by
  have hdata : longMessage.bytes ≠ [] := List.ne_nil_of_length_pos (by rw [length_longMessage]; norm_num)
  have hle : 0 ≤ bufferSize := Nat.zero_le _
  exact ⟨_, (exec_append_of_exec (exec_call rfl hdata)).trans
    ((exec_append_of_exec
      (exec_filling (s := longSender 0) rfl rfl rfl (longSender_lt 0 hle) longMessage_short)).trans
    (exec_flushing rfl rfl (longSender_ne_nil 0 hle) (longSender_fills 0 hle).le)),
    rfl, rfl, rfl, rfl, rfl⟩

/-- The thread fills the ring buffer again, and has one byte left. -/
theorem exec_refilled {p : Pipe zeroBuild} (hs : p.senders 0 = some (longSender (0 + bufferSize)))
    (hq : p.queue = []) : ∃ q s, exec (flow (some 0)) p [.send 0, .send 0] = some q ∧ q.senders 0 = some s ∧
      s.iret < s.data.bytes.length ∧ q.queue ≠ [] ∧
      q.asyncPending = p.asyncPending ∧ q.loop = p.loop ∧ q.inflight = p.inflight := by
  have hle : 0 + bufferSize ≤ bufferSize := (Nat.zero_add _).le
  have hlt := longSender_lt _ hle
  have hfilling : exec (flow (some 0)) p [.send 0, .send 0] = _ :=
    exec_filling (s := longSender (0 + bufferSize)) hs rfl hq hlt longMessage_short
  refine ⟨_, longSender (0 + bufferSize + bufferSize), hfilling, ?_, ?_, ?_, rfl, rfl, rfl⟩
  · dsimp only
    rw [Function.update_self]
    rfl
  · exact hlt
  · dsimp only
    exact longSender_ne_nil (0 + bufferSize) hle

/-- A pass of `Send` fits while a drain is to come. -/
theorem along_pass (h : s.out.DrainComing) : Along step PassFits s [.send r, .send r] :=
  fun _ hstep => ⟨fun _ _ _ _ _ => .inl h,
    fun _ _ => ⟨fun _ _ _ _ _ => .inl (h.sendStep (step_out hstep)), trivial⟩⟩

/-- The ring buffer is filled, emptied and filled again. -/
def refillRun : List (Event zeroBuild) :=
  [.call 0 longMessage] ++ ([.send 0, .send 0] ++ flushing 0) ++ [.send 0, .send 0]

/-- The passes of this run fit. -/
theorem along_refillRun : Along step PassFits zeroStart ([.connected 0 0] ++ refillRun) := by
  obtain ⟨p, hemptied, -, -, -, -, hinflight⟩ := exec_emptied
  have hdata : longMessage.bytes ≠ [] := List.ne_nil_of_length_pos (by rw [length_longMessage]; norm_num)
  obtain ⟨o₁, hrun₁, -, hpipe₁⟩ := exec_connected (exec_call rfl hdata)
  obtain ⟨o₂, hrun₂, -, hpipe₂⟩ := exec_connected hemptied
  have hcoming₁ : o₁.DrainComing := Outbound.pipe_drainComing.1 (.inl (by rw [hpipe₁]))
  have hcoming₂ : o₂.DrainComing := by
    refine Outbound.pipe_drainComing.1 (.inr (.inr ?_))
    rw [hpipe₂, hinflight]
    exact Nat.one_ne_zero
  have hother : ∀ es : List (Event zeroBuild), (∀ e ∈ es, ∀ r, e ≠ .send r) → ∀ s, Along step PassFits s es :=
    fun es hes => Along.of_forall fun s e he t p hsend => absurd hsend (hes e he t)
  have hsplit : [.connected 0 0] ++ refillRun = (([.connected 0 0] ++ [.call 0 longMessage]) ++
      ([.send 0, .send 0] ++ flushing 0)) ++ [.send 0, .send 0] := rfl
  rw [hsplit]
  refine .append (.append (hother _ ?_ _) fun s hs => .append (along_pass ?_) fun t _ => hother _ ?_ t)
    fun s hs => along_pass ?_
  · simp
  · rw [hrun₁] at hs
    cases hs
    exact hcoming₁
  · simp [flushing]
  · rw [List.append_assoc, hrun₂] at hs
    cases hs
    exact hcoming₂

/-- The thread waits with the ring buffer full for the second time, and the write in flight will wake up
the loop thread. -/
theorem awake_refilled : ∃ t p, exec step zeroStart ([.connected 0 0] ++ refillRun) = some t ∧
    t.out.senders 0 = some p ∧ p.iret < p.data.bytes.length ∧ t.out.queue ≠ [] ∧ t.out.DrainComing := by
  obtain ⟨p, hemptied, hs, hq, -⟩ := exec_emptied
  obtain ⟨q, w, hrefilled, hw, hwaits, hqueue, -⟩ := exec_refilled hs hq
  obtain ⟨o, hrun, -, rfl⟩ := exec_connected ((exec_append_of_exec hemptied).trans hrefilled)
  have halways := (awake_iff 0 _ _ ([.connected 0 0] ++ refillRun) (by
    simp [refillRun, flushing, Pipe.Undisturbed])).2 along_refillRun
  exact ⟨_, w, hrun, hw, hwaits, hqueue, halways.last hrun w hw hwaits hqueue⟩

/-! ## A wake-up that is lost -/

/-- The ring buffer is filled, emptied and filled again, when the wake-up has been used up and the only
write is completed. -/
def lostWakeupRun : List (Event zeroBuild) :=
  [.call 0 longMessage] ++ ([.send 0, .send 0] ++
    (flushing 0 ++ ([.afterSend 0 0, .drain] ++ [.send 0, .send 0])))

theorem exec_lostWakeup : ∃ p, exec (flow (some 0)) Pipe.start lostWakeupRun = some p ∧
    ¬ p.Awake 0 := by
  obtain ⟨p, hemptied, hs, hq, hasync, hloop, hinflight⟩ := exec_emptied
  obtain ⟨q, w, hrefilled, hw, hwaits, hqueue, hasync', hloop', hinflight'⟩ :=
    exec_refilled (p := { p with inflight := 0, loop := .idle }) hs hq
  have hsplit : lostWakeupRun = ([.call 0 longMessage] ++ ([.send 0, .send 0] ++ flushing 0)) ++
      ([.afterSend 0 0, .drain] ++ [.send 0, .send 0]) := rfl
  refine ⟨q, ?_, fun hawake => ?_⟩
  · rw [hsplit, exec_append_of_exec hemptied, exec_append_of_exec (exec_completed hloop hinflight hq)]
    exact hrefilled
  have hcoming := hawake w hw hwaits hqueue
  rcases hcoming with h | h | h
  · rw [hasync', hasync] at h
    cases h
  · exact h hloop'
  · exact h hinflight'

/-- The thread waits for ever with 10240 bytes in the ring buffer and one byte to go. -/
theorem lostWakeup : ¬ Always step (fun s => s.out.Awake 0) zeroStart
    ([.connected 0 0] ++ lostWakeupRun) := by
  intro h
  obtain ⟨p, hflow, hawake⟩ := exec_lostWakeup
  obtain ⟨o, hrun, -, rfl⟩ := exec_connected hflow
  exact hawake (Outbound.pipe_awake.2 (h.last hrun))

end CTCPClient

end SimpleUv
