import Mathlib.Tactic.NormNum
import SimpleUv.Libuv.Queue
import SimpleUv.Foundations.Behaviour

/-!
# Wake-ups of the loop: `async.c`

`uv_async_send` may be called by any thread. It sets the flag `pending` of the handle, and the thread that
finds it clear adds one to the counter of an `eventfd`. The loop thread sleeps while the counter is zero;
`uv__async_io` sets it back, and `uv__async_event` moves the handles to a queue of its own, takes one after
another out of it and calls the callback of those whose flag is set. A callback may close any handle and
open new ones.

A step here is one access to what the threads share: the test of the flag, its exchange, the write to the
`eventfd`; of the loop thread one turn of a loop or a callback's return. That a handle is awaited, `awaited`,
is not in the source: it is set when a call of `uv_async_send` begins and cleared when the callback is
called.
-/

namespace SimpleUv.Libuv

open Foundations Neighbours

/-- The nodes of the queues: the head `loop->async_handles`, the head `queue` on the stack of
`uv__async_event`, and the node in a handle. -/
inductive AsyncNode (A : Type) where
  | asyncHandles
  | queue
  | handle (a : A)
  deriving DecidableEq

/-- What the loop thread does next: sleep or read the `eventfd`; the test of the `while` loop; the exchange of
the flag of a handle; the return of its callback. -/
inductive LoopPoint (A : Type) where
  | poll
  | visit
  | test (a : A)
  | callback (a : A)
  deriving DecidableEq

/-- Where a thread is in `uv_async_send`. -/
inductive SendPoint where
  | read
  | cmpxchg
  | write
  deriving DecidableEq

/-- The loop and its handles `A`, and the threads `T`. -/
structure AsyncLoop (A T : Type) where
  queues : Neighbours (AsyncNode A)
  pending : A → Bool
  /-- `async_cb` is not `NULL`. -/
  asyncCb : A → Bool
  /-- The flag `UV__HANDLE_ACTIVE`: the handle is initialised and not closed. -/
  active : A → Bool
  /-- The counter of the `eventfd`. -/
  counter : ℕ
  loop : LoopPoint A
  sender : T → Option (SendPoint × A)
  awaited : A → Bool

/-- A call of `uv_async_send`, the next step of a thread in it, the next step of the loop thread, and, by the
loop thread outside of `uv__async_event` or in a callback, `uv_async_init` and `uv__async_close`. -/
inductive AsyncEvent (A T : Type) where
  | send (t : T) (a : A)
  | sender (t : T)
  | loop
  | init (a : A) (cb : Bool)
  | close (a : A)

namespace AsyncLoop

variable {A T : Type} [DecidableEq A] [DecidableEq T]

/-- The loop thread runs code of the program. -/
def UserCode (s : AsyncLoop A T) : Bool :=
  match s.loop with
  | .poll => true
  | .callback _ => true
  | _ => false

/-- A step of `uv_async_send`. A write beyond the largest value of the counter fails with `EAGAIN`. -/
def stepSender (s : AsyncLoop A T) (t : T) : Option (AsyncLoop A T) :=
  match s.sender t with
  | none => none
  | some (.read, a) =>
    if s.pending a then some { s with sender := Function.update s.sender t none }
    else some { s with sender := Function.update s.sender t (some (.cmpxchg, a)) }
  | some (.cmpxchg, a) =>
    if s.pending a then some { s with sender := Function.update s.sender t none }
    else some { s with
      pending := Function.update s.pending a true
      sender := Function.update s.sender t (some (.write, a)) }
  | some (.write, _) => some { s with
      counter := if s.counter < 2 ^ 64 - 2 then s.counter + 1 else s.counter
      sender := Function.update s.sender t none }

/-- A step of the loop thread: `uv__async_io` and `uv__async_event`. -/
def stepLoop (s : AsyncLoop A T) : Option (AsyncLoop A T) :=
  match s.loop with
  | .poll =>
    if s.counter = 0 then none
    else some { s with counter := 0, queues := queueMove s.queues .asyncHandles .queue, loop := .visit }
  | .visit =>
    if queueEmpty s.queues .queue then some { s with loop := .poll }
    else
      match queueHead s.queues .queue with
      | .handle a =>
        let m := queueRemove s.queues (.handle a)
        some { s with queues := queueInsertTail m .asyncHandles (.handle a), loop := .test a }
      | _ => none
  | .test a =>
    if s.pending a then
      let s := { s with pending := Function.update s.pending a false }
      if s.asyncCb a then
        some { s with awaited := Function.update s.awaited a false, loop := .callback a }
      else some { s with loop := .visit }
    else some { s with loop := .visit }
  | .callback _ => some { s with loop := .visit }

/-- The effect of an event, `none` when it cannot happen. -/
def step (s : AsyncLoop A T) : AsyncEvent A T → Option (AsyncLoop A T)
  | .send t a =>
    if (s.sender t).isNone ∧ s.active a then some { s with
      sender := Function.update s.sender t (some (.read, a))
      awaited := Function.update s.awaited a true }
    else none
  | .sender t => s.stepSender t
  | .loop => s.stepLoop
  | .init a cb =>
    if s.UserCode ∧ ¬s.active a then some { s with
      queues := queueInsertTail s.queues .asyncHandles (.handle a)
      pending := Function.update s.pending a false
      asyncCb := Function.update s.asyncCb a cb
      active := Function.update s.active a true
      awaited := Function.update s.awaited a false }
    else none
  | .close a =>
    if s.UserCode ∧ s.active a then some { s with
      queues := queueRemove s.queues (.handle a)
      active := Function.update s.active a false }
    else none

/-- The loop after `uv_loop_init`, with any values in the memory of the handles. -/
def IsInit (s : AsyncLoop A T) : Prop :=
  Circle s.queues .asyncHandles [] ∧ (∀ a, s.active a = false) ∧ (∀ t, s.sender t = none) ∧
    s.counter = 0 ∧ s.loop = .poll

/-! ### The queues -/

/-- The active handles are in the queue of the loop, or in the one of `uv__async_event` while that runs. -/
structure Shape (s : AsyncLoop A T) (handles queue : List A) : Prop where
  loopQueue : Circle s.queues .asyncHandles (handles.map .handle)
  ownQueue : s.loop ≠ .poll → Circle s.queues .queue (queue.map .handle)
  asleep : s.loop = .poll → queue = []
  nodup : (handles ++ queue).Nodup
  active : ∀ a, s.active a = true ↔ a ∈ handles ++ queue
  tested : ∀ a, s.loop = .test a → a ∈ handles

variable {s s' : AsyncLoop A T} {a : A} {t : T} {e : AsyncEvent A T} {handles queue : List A}

/-- What an event does: the state after it, and the handles in the two queues. -/
inductive Moves (s : AsyncLoop A T) (handles queue : List A) :
    AsyncEvent A T → AsyncLoop A T → List A → List A → Prop
  | send (t : T) (a : A) (h : s.sender t = none) (ha : s.active a = true) :
      Moves s handles queue (.send t a) { s with
        sender := Function.update s.sender t (some (.read, a))
        awaited := Function.update s.awaited a true } handles queue
  | found (t : T) (p : SendPoint) (a : A) (h : s.sender t = some (p, a)) (hp : p ≠ .write)
      (ha : s.pending a = true) :
      Moves s handles queue (.sender t) { s with sender := Function.update s.sender t none } handles queue
  | read (t : T) (a : A) (h : s.sender t = some (.read, a)) (ha : s.pending a = false) :
      Moves s handles queue (.sender t)
        { s with sender := Function.update s.sender t (some (.cmpxchg, a)) } handles queue
  | cmpxchg (t : T) (a : A) (h : s.sender t = some (.cmpxchg, a)) (ha : s.pending a = false) :
      Moves s handles queue (.sender t) { s with
        pending := Function.update s.pending a true
        sender := Function.update s.sender t (some (.write, a)) } handles queue
  | write (t : T) (a : A) (n : ℕ) (h : s.sender t = some (.write, a)) (hn : 0 < n) :
      Moves s handles queue (.sender t)
        { s with counter := n, sender := Function.update s.sender t none } handles queue
  | wake (m : Neighbours (AsyncNode A)) (h : s.loop = .poll) (hc : 0 < s.counter) :
      Moves s handles queue .loop { s with counter := 0, queues := m, loop := .visit } [] handles
  | sleep (h : s.loop = .visit) (hq : queue = []) :
      Moves s handles queue .loop { s with loop := .poll } handles queue
  | visit (m : Neighbours (AsyncNode A)) (a : A) (rest : List A) (h : s.loop = .visit)
      (hq : queue = a :: rest) :
      Moves s handles queue .loop { s with queues := m, loop := .test a } (handles ++ [a]) rest
  | idle (a : A) (h : s.loop = .test a) (ha : s.pending a = false) :
      Moves s handles queue .loop { s with loop := .visit } handles queue
  | skip (a : A) (h : s.loop = .test a) (ha : s.pending a = true) (hcb : s.asyncCb a = false) :
      Moves s handles queue .loop { s with
        pending := Function.update s.pending a false
        loop := .visit } handles queue
  | call (a : A) (h : s.loop = .test a) (ha : s.pending a = true) (hcb : s.asyncCb a = true) :
      Moves s handles queue .loop { s with
        pending := Function.update s.pending a false
        awaited := Function.update s.awaited a false
        loop := .callback a } handles queue
  | return (a : A) (h : s.loop = .callback a) :
      Moves s handles queue .loop { s with loop := .visit } handles queue
  | init (m : Neighbours (AsyncNode A)) (a : A) (cb : Bool) (hu : s.UserCode = true)
      (ha : s.active a = false) :
      Moves s handles queue (.init a cb) { s with
        queues := m
        pending := Function.update s.pending a false
        asyncCb := Function.update s.asyncCb a cb
        active := Function.update s.active a true
        awaited := Function.update s.awaited a false } (handles ++ [a]) queue
  | close (m : Neighbours (AsyncNode A)) (a : A) (hu : s.UserCode = true) (ha : s.active a = true) :
      Moves s handles queue (.close a) { s with
        queues := m
        active := Function.update s.active a false } (handles.erase a) (queue.erase a)

omit [DecidableEq A] [DecidableEq T] in
theorem disjoint_queues (hnodup : (handles ++ queue).Nodup) :
    ∀ x ∈ AsyncNode.asyncHandles :: handles.map AsyncNode.handle,
      x ∉ AsyncNode.queue :: queue.map AsyncNode.handle := by
  intro x hx hx'
  rw [List.mem_cons, List.mem_map] at hx hx'
  rcases hx with rfl | ⟨a, ha, rfl⟩
  · rcases hx' with hx' | ⟨b, -, hb⟩
    · cases hx'
    · cases hb
  · rcases hx' with hx' | ⟨b, hb, hba⟩
    · cases hx'
    · cases hba
      exact (List.nodup_append.1 hnodup).2.2 _ ha _ hb rfl

namespace Shape

omit [DecidableEq A] [DecidableEq T] in
theorem notMem_queue (hs : Shape s handles queue) (ha : s.active a = false) : a ∉ handles ++ queue :=
  fun hc => Bool.false_ne_true (ha.symm.trans ((hs.active a).2 hc))

theorem moves_sender (hs : Shape s handles queue) (h : s.stepSender t = some s') :
    ∃ handles' queue', Moves s handles queue (.sender t) s' handles' queue' ∧ Shape s' handles' queue' := by
  rw [stepSender] at h
  cases hsend : s.sender t with
  | none => simp [hsend] at h
  | some c =>
    obtain ⟨p, a⟩ := c
    have hwrite : 0 < (if s.counter < 2 ^ 64 - 2 then s.counter + 1 else s.counter) := by
      split_ifs <;> omega
    rcases p with _ | _ | _
    · cases hpend : s.pending a with
      | true =>
        obtain rfl : _ = s' := by simpa [hsend, hpend] using h
        exact ⟨handles, queue, .found t .read a hsend (by simp) hpend,
          hs.loopQueue, hs.ownQueue, hs.asleep, hs.nodup, hs.active, hs.tested⟩
      | false =>
        obtain rfl : _ = s' := by simpa [hsend, hpend] using h
        exact ⟨handles, queue, .read t a hsend hpend,
          hs.loopQueue, hs.ownQueue, hs.asleep, hs.nodup, hs.active, hs.tested⟩
    · cases hpend : s.pending a with
      | true =>
        obtain rfl : _ = s' := by simpa [hsend, hpend] using h
        exact ⟨handles, queue, .found t .cmpxchg a hsend (by simp) hpend,
          hs.loopQueue, hs.ownQueue, hs.asleep, hs.nodup, hs.active, hs.tested⟩
      | false =>
        obtain rfl : _ = s' := by simpa [hsend, hpend] using h
        exact ⟨handles, queue, .cmpxchg t a hsend hpend,
          hs.loopQueue, hs.ownQueue, hs.asleep, hs.nodup, hs.active, hs.tested⟩
    · obtain rfl : _ = s' := by simpa [hsend] using h
      exact ⟨handles, queue, .write t a _ hsend hwrite,
        hs.loopQueue, hs.ownQueue, hs.asleep, hs.nodup, hs.active, hs.tested⟩

theorem moves_loop (hs : Shape s handles queue) (h : s.stepLoop = some s') :
    ∃ handles' queue', Moves s handles queue .loop s' handles' queue' ∧ Shape s' handles' queue' := by
  rw [stepLoop] at h
  cases hl : s.loop with
  | poll =>
    by_cases hc : s.counter = 0
    · simp [hl, hc] at h
    · obtain rfl : _ = s' := by simpa [hl, hc] using h
      have hq := hs.asleep hl
      subst hq
      obtain ⟨h₁, h₂⟩ := queueMove_circle (n := AsyncNode.queue) hs.loopQueue (by simp)
      refine ⟨[], handles, .wake _ hl (Nat.pos_of_ne_zero hc), h₁, fun _ => h₂, ?_, ?_, ?_, ?_⟩
      · intro hc'; cases hc'
      · simpa using hs.nodup
      · intro a
        simpa using hs.active a
      · intro a hc'; cases hc'
  | visit =>
    have hown := hs.ownQueue (by simp [hl])
    cases hq : queue with
    | nil =>
      subst hq
      have hempty : queueEmpty s.queues .queue = true := (queueEmpty_iff hown).2 rfl
      obtain rfl : _ = s' := by simpa [hl, hempty] using h
      refine ⟨handles, [], .sleep hl rfl, hs.loopQueue, fun hc => absurd rfl hc, fun _ => rfl, hs.nodup,
        hs.active, ?_⟩
      intro a hc'; cases hc'
    | cons a rest =>
      subst hq
      have hne : queueEmpty s.queues .queue = false := by
        rw [← Bool.not_eq_true, queueEmpty_iff hown]
        simp
      have hhead : queueHead s.queues .queue = .handle a := circle_next hown
      obtain rfl : _ = s' := by simpa [hl, hne, hhead] using h
      have hdisj := disjoint_queues hs.nodup
      have hrem := queueRemove_circle (a := []) hown
      have hfr := queueRemove_frame (a := []) hown hs.loopQueue fun x hx hx' => hdisj x hx' hx
      have hnot : AsyncNode.handle a ∉ AsyncNode.asyncHandles :: handles.map AsyncNode.handle :=
        fun hc => hdisj _ hc (by simp)
      have hnodup : (a :: rest).Nodup := (List.nodup_append.1 hs.nodup).2.1
      have hnot' : AsyncNode.handle a ∉ AsyncNode.queue :: rest.map AsyncNode.handle := by
        simpa using (List.nodup_cons.1 hnodup).1
      refine ⟨handles ++ [a], rest, .visit _ a rest hl rfl, ?_, fun _ => ?_, ?_, ?_, ?_, ?_⟩
      · rw [List.map_append]
        exact queueInsertTail_circle hfr hnot
      · refine queueInsertTail_frame hfr hnot hrem (fun x hx hx' => hdisj x hx ?_) hnot'
        rw [List.map_cons]
        rcases List.mem_cons.1 hx' with rfl | hx'
        · exact List.mem_cons_self
        · exact List.mem_cons_of_mem _ (List.mem_cons_of_mem _ hx')
      · intro hc'; cases hc'
      · simpa using hs.nodup
      · intro b
        simpa using hs.active b
      · intro b hb
        cases hb
        simp
  | test a =>
    cases hpend : s.pending a with
    | false =>
      obtain rfl : _ = s' := by simpa [hl, hpend] using h
      refine ⟨handles, queue, .idle a hl hpend, hs.loopQueue, fun _ => hs.ownQueue (by simp [hl]), ?_,
        hs.nodup, hs.active, ?_⟩
      · intro hc'; cases hc'
      · intro b hc'; cases hc'
    | true =>
      cases hcb : s.asyncCb a with
      | false =>
        obtain rfl : _ = s' := by simpa [hl, hpend, hcb] using h
        refine ⟨handles, queue, .skip a hl hpend hcb, hs.loopQueue, fun _ => hs.ownQueue (by simp [hl]), ?_,
          hs.nodup, hs.active, ?_⟩
        · intro hc'; cases hc'
        · intro b hc'; cases hc'
      | true =>
        obtain rfl : _ = s' := by simpa [hl, hpend, hcb] using h
        refine ⟨handles, queue, .call a hl hpend hcb, hs.loopQueue, fun _ => hs.ownQueue (by simp [hl]), ?_,
          hs.nodup, hs.active, ?_⟩
        · intro hc'; cases hc'
        · intro b hc'; cases hc'
  | callback a =>
    obtain rfl : _ = s' := by simpa [hl] using h
    refine ⟨handles, queue, .return a hl, hs.loopQueue, fun _ => hs.ownQueue (by simp [hl]), ?_, hs.nodup,
      hs.active, ?_⟩
    · intro hc'; cases hc'
    · intro b hc'; cases hc'

omit [DecidableEq T] in
/-- A circle of handles without one of them. -/
theorem erase_circle {m : Neighbours (AsyncNode A)} {n : AsyncNode A} {l : List A}
    (hc : Circle m n (l.map .handle)) (hl : l.Nodup) (ha : a ∈ l) :
    Circle (queueRemove m (.handle a)) n ((l.erase a).map .handle) ∧
      ∀ n' l', Circle m n' l' → (∀ x ∈ n :: l.map AsyncNode.handle, x ∉ n' :: l') →
        Circle (queueRemove m (.handle a)) n' l' := by
  obtain ⟨x, y, rfl⟩ := List.append_of_mem ha
  have hx : a ∉ x := fun hx => (List.nodup_append.1 hl).2.2 a hx a List.mem_cons_self rfl
  rw [List.map_append, List.map_cons] at hc ⊢
  rw [List.erase_append_right _ hx, List.erase_cons_head, List.map_append]
  exact ⟨queueRemove_circle hc, fun n' l' hc' hd => queueRemove_frame hc hc' hd⟩

theorem moves_init {cb : Bool} (hs : Shape s handles queue) (h : s.step (.init a cb) = some s') :
    ∃ handles' queue', Moves s handles queue (.init a cb) s' handles' queue' ∧
      Shape s' handles' queue' := by
  rw [step] at h
  split_ifs at h with hif
  cases h
  obtain ⟨hu, ha⟩ := hif
  rw [Bool.not_eq_true] at ha
  have hnot := hs.notMem_queue ha
  rw [List.mem_append, not_or] at hnot
  have hnot₁ : AsyncNode.handle a ∉ AsyncNode.asyncHandles :: handles.map AsyncNode.handle := by
    simpa using hnot.1
  have hnot₂ : AsyncNode.handle a ∉ AsyncNode.queue :: queue.map AsyncNode.handle := by
    simpa using hnot.2
  refine ⟨handles ++ [a], queue, .init _ a cb hu ha, ?_, fun hl => ?_, hs.asleep, ?_, ?_, fun b hb => ?_⟩
  · rw [List.map_append]
    exact queueInsertTail_circle hs.loopQueue hnot₁
  · exact queueInsertTail_frame hs.loopQueue hnot₁ (hs.ownQueue hl) (disjoint_queues hs.nodup) hnot₂
  · have hperm : (a :: (handles ++ queue)).Perm (handles ++ [a] ++ queue) := by
      rw [List.append_assoc]
      exact List.perm_middle.symm
    refine hperm.nodup_iff.1 (List.nodup_cons.2 ⟨?_, hs.nodup⟩)
    rw [List.mem_append, not_or]
    exact hnot
  · intro b
    rcases eq_or_ne b a with rfl | hba
    · simp
    · have hb := hs.active b
      simp only [Function.update_of_ne hba, List.mem_append, List.mem_singleton, hba, or_false] at hb ⊢
      exact hb
  · exact List.mem_append_left [a] (hs.tested b hb)

theorem moves_close (hs : Shape s handles queue) (h : s.step (.close a) = some s') :
    ∃ handles' queue', Moves s handles queue (.close a) s' handles' queue' ∧ Shape s' handles' queue' := by
  rw [step] at h
  split_ifs at h with hif
  cases h
  obtain ⟨hu, ha⟩ := hif
  have hmem := (hs.active a).1 ha
  obtain ⟨hnodup₁, hnodup₂, hne⟩ := List.nodup_append.1 hs.nodup
  have hdisj := disjoint_queues hs.nodup
  refine ⟨handles.erase a, queue.erase a, .close _ a hu ha, ?_⟩
  have hactive : ∀ b, Function.update s.active a false b = true ↔ b ∈ handles.erase a ++ queue.erase a := by
    intro b
    rw [List.mem_append, hnodup₁.mem_erase_iff, hnodup₂.mem_erase_iff]
    rcases eq_or_ne b a with rfl | hba
    · simp
    · have hb := hs.active b
      rw [List.mem_append] at hb
      simp only [Function.update_of_ne hba, hba, ne_eq, not_false_eq_true, true_and]
      exact hb
  have hnodup : (handles.erase a ++ queue.erase a).Nodup :=
    hs.nodup.sublist (List.erase_sublist.append List.erase_sublist)
  have htested : ∀ b, s.loop = .test b → b ∈ handles.erase a := by
    intro b hb
    rw [UserCode, hb] at hu
    cases hu
  have hasleep : s.loop = .poll → queue.erase a = [] := fun hl => by rw [hs.asleep hl, List.erase_nil]
  rcases List.mem_append.1 hmem with hin | hin
  · have hnot : a ∉ queue := fun hc => hne a hin a hc rfl
    obtain ⟨hc, hfr⟩ := erase_circle hs.loopQueue hnodup₁ hin
    refine ⟨hc, fun hl => ?_, hasleep, hnodup, hactive, htested⟩
    rw [List.erase_of_not_mem hnot]
    exact hfr _ _ (hs.ownQueue hl) hdisj
  · have hnot : a ∉ handles := fun hc => hne a hc a hin rfl
    have hl : s.loop ≠ .poll := fun hl => by
      rw [hs.asleep hl] at hin
      exact List.not_mem_nil hin
    obtain ⟨hc, hfr⟩ := erase_circle (hs.ownQueue hl) hnodup₂ hin
    refine ⟨?_, fun _ => hc, hasleep, hnodup, hactive, htested⟩
    rw [List.erase_of_not_mem hnot]
    exact hfr _ _ hs.loopQueue fun x hx hx' => hdisj x hx' hx

/-- **The steps never lose a handle**: each one is as `Moves` says, and keeps the queues. -/
theorem moves (hs : Shape s handles queue) (h : s.step e = some s') :
    ∃ handles' queue', Moves s handles queue e s' handles' queue' ∧ Shape s' handles' queue' := by
  cases e with
  | send t a =>
    rw [step] at h
    split_ifs at h with hif
    cases h
    exact ⟨handles, queue, .send t a (Option.isNone_iff_eq_none.1 hif.1) hif.2,
      hs.loopQueue, hs.ownQueue, hs.asleep, hs.nodup, hs.active, hs.tested⟩
  | sender t => exact hs.moves_sender h
  | loop => exact hs.moves_loop h
  | init a cb => exact hs.moves_init h
  | close a => exact hs.moves_close h

/-- The loop thread is never stuck but asleep. -/
theorem stepLoop_isSome (hs : Shape s handles queue) (hl : s.loop = .poll → 0 < s.counter) :
    ∃ s', s.step .loop = some s' := by
  rw [step, stepLoop]
  cases hloop : s.loop with
  | poll => simp [(hl hloop).ne']
  | visit =>
    have hown := hs.ownQueue (by simp [hloop])
    cases queue with
    | nil =>
      have hempty : queueEmpty s.queues .queue = true := (queueEmpty_iff hown).2 rfl
      simp [hempty]
    | cons a rest =>
      have hne : queueEmpty s.queues .queue = false := by
        rw [← Bool.not_eq_true, queueEmpty_iff hown]
        simp
      have hhead : queueHead s.queues .queue = .handle a := circle_next hown
      simp [hne, hhead]
  | test a => cases hpend : s.pending a <;> cases hcb : s.asyncCb a <;> simp [hpend, hcb]
  | callback a => simp

end Shape

end AsyncLoop

end SimpleUv.Libuv
