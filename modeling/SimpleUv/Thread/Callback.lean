import SimpleUv.Thread.Dispatch

/-!
# Thread messages on the loop thread

A `CTCPHandle` has a message queue too, and its consumer is the loop thread: `uv_async_send` makes libuv
call `AsyncRecvMsg`, which calls `DispatchThreadMsg`. While the callback runs, no callback of the network
does. `DispatchThreadMsg` was written for a thread of its own: it hands over what is in the queue
(`eventually_dispatched`), but its outer loop has no end, so the callback does not return
(`not_returns`).
-/

namespace SimpleUv

open Foundations

variable {A D : Type}

/-- A `CTCPHandle`: its queue, whether its loop thread is in `AsyncRecvMsg`, and how many callbacks of the
network the loop thread has run. -/
structure CTCPHandle (A D : Type) where
  msgs : CThreadMsgBase A D
  recvMsg : Bool
  network : ℕ

/-- A step of a producer, the start of `AsyncRecvMsg`, its next step, and a callback of the network. -/
inductive LoopEvent (A D : Type)
  | create (a : A) (msg : Msg D) (link : Option A)
  | push (a : A)
  | asyncRecvMsg
  | dispatch
  | network

namespace CThreadMsgBase

variable {s t : CThreadMsgBase A D} {v : View A D}

/-! ## What is left to do -/

/-- How many steps the consumer needs at most until it hands over the next message. -/
def distance (s : CThreadMsgBase A D) : ℕ :=
  match s.line with
  | .handler => 9
  | .delete => 8
  | .sleep => 7
  | .outer => 6
  | .test => 5
  | .steal => 4
  | .inner => if s.next = none then 7 else 3
  | .fetch => 2
  | .dispatch => 1
  | .ret => 0

/-- A bound for the steps until everything is handed over. -/
def effort (s : CThreadMsgBase A D) : ℕ :=
  10 * (s.pushed.length - s.dispatched.length) + s.distance

/-- When the consumer has no node, everything is handed over but the ring. -/
theorem Represents.waiting (h : s.Represents v) (hheld : v.held = []) (hrest : v.rest = [])
    (hhanded : s.handed v = []) : s.pushed = s.dispatched ++ v.ring.map Prod.snd := by
  rw [h.pushed, h.dispatched, hhanded, View.log, View.nodes, hheld, hrest, List.append_nil,
    List.append_nil, List.nil_append]

variable [DecidableEq A]

/-- **The consumer makes progress** as long as a message is left. -/
theorem Represents.effort_lt (h : s.Represents v) (hrun : s.dispatchThreadMsg = some t)
    (hne : s.dispatched ≠ s.pushed) : t.effort < s.effort := by
  have hstands := h.stands
  cases dispatchThreadMsg_cases hrun with
  | outer hline =>
    simp only [effort, distance, hline]
    omega
  | test hline =>
    simp only [Stands, hline] at hstands
    have htail : s.msgTail ≠ none := by
      rw [h.tail]
      intro htail
      have hring : v.ring = [] := by simpa using htail
      have hpushed := h.waiting hstands.1 hstands.2 (by simp only [handed, hline])
      rw [hring, List.map_nil, List.append_nil] at hpushed
      exact hne hpushed.symm
    simp only [effort, distance, hline, htail, if_false]
    omega
  | sleep hline =>
    simp only [effort, distance, hline]
    omega
  | @steal tail last hline htail hlast =>
    obtain ⟨t, v', hrun', ht, htaken, -⟩ := h.steal hline
    obtain rfl := Option.some.inj (hrun.symm.trans hrun')
    have hstands' := ht.stands
    simp only [Stands] at hstands'
    have hnext : last.node.next ≠ none := by
      intro hnext
      have hrest : v'.rest = [] := by simpa using hstands'.2.symm.trans hnext
      have hdone := ht.dispatched
      simp only [handed, List.append_nil] at hdone
      rw [View.taken, hstands'.1, hrest, List.append_nil, List.map_nil, List.append_nil] at htaken
      exact hne (hdone.trans htaken)
    simp only [effort, distance, hline, hnext, if_false]
    omega
  | inner hline =>
    by_cases hnext : s.next = none
    · simp only [effort, distance, hline, hnext, if_true]
      omega
    · simp only [effort, distance, hline, hnext, if_false]
      omega
  | fetch hline =>
    simp only [effort, distance, hline]
    omega
  | dispatch hline =>
    have hlt : s.dispatched.length < s.pushed.length :=
      lt_of_le_of_ne h.dispatched_prefix.length_le fun heq => hne (h.dispatched_prefix.eq_of_length heq)
    simp only [effort, distance, hline, List.length_append, List.length_singleton]
    omega
  | handler hline =>
    simp only [effort, distance, hline]
    omega
  | delete hline =>
    simp only [effort, distance, hline]
    split_ifs <;> omega
  | ret hline =>
    simp only [Stands, hline] at hstands

/-! ## The outer loop has no end -/

theorem dispatchThreadMsg_line (hline : s.line ≠ .ret) (hrun : s.dispatchThreadMsg = some t) :
    t.line ≠ .ret := by
  cases dispatchThreadMsg_cases hrun with
  | ret h => exact absurd h hline
  | test | inner =>
    show ite _ _ _ ≠ _
    split_ifs <;> exact Line.noConfusion
  | outer | sleep | steal | fetch | dispatch | handler | delete => exact Line.noConfusion

theorem pushBackMsg_line {a : A} (hpush : s.pushBackMsg a = some t) : t.line = s.line := by
  obtain ⟨e, -, hpush⟩ := Option.bind_eq_some_iff.1 hpush
  split at hpush
  all_goals
    simp only [Option.bind_eq_bind, Option.bind_eq_some_iff] at hpush
  · obtain ⟨heap, -, hpush⟩ := hpush
    cases hpush
    rfl
  · obtain ⟨last, -, heap₁, -, heap₂, -, hpush⟩ := hpush
    cases hpush
    rfl

/-- No step of anybody ends it. -/
theorem step_line {e : QueueEvent A D} (hline : s.line ≠ .ret) (hstep : s.step e = some t) :
    t.line ≠ .ret := by
  cases e with
  | create a msg link =>
    obtain ⟨-, hstep⟩ := Option.ite_none_right_eq_some.1 hstep
    cases hstep
    exact hline
  | push a =>
    obtain ⟨-, hstep⟩ := Option.ite_none_right_eq_some.1 hstep
    cases hstep
    cases hpush : s.pushBackMsg a with
    | none => exact hline
    | some t => exact pushBackMsg_line hpush ▸ hline
  | run =>
    cases hstep
    cases hrun : s.dispatchThreadMsg with
    | none => exact hline
    | some t => exact dispatchThreadMsg_line hline hrun

end CThreadMsgBase

namespace CTCPHandle

variable [DecidableEq A] (s : CTCPHandle A D)

/-- The queue after a step of its own. -/
def withMsgs (e : QueueEvent A D) : Option (CTCPHandle A D) :=
  (s.msgs.step e).map fun msgs => { s with msgs := msgs }

/-- One step of a producer or of the loop thread. `AsyncRecvMsg` returns when `DispatchThreadMsg` has. -/
def step : LoopEvent A D → Option (CTCPHandle A D)
  | .create a msg link => s.withMsgs (.create a msg link)
  | .push a => s.withMsgs (.push a)
  | .asyncRecvMsg =>
    if s.recvMsg then none else some { s with msgs := { s.msgs with line := .outer }, recvMsg := true }
  | .dispatch =>
    if s.recvMsg then
      if s.msgs.line = .ret then some { s with recvMsg := false } else s.withMsgs .run
    else none
  | .network => if s.recvMsg then none else some { s with network := s.network + 1 }

/-- An endless run, with the events that happen. -/
def IsRun (ρ : ℕ → CTCPHandle A D) (σ : ℕ → LoopEvent A D) : Prop :=
  ∀ n, (ρ n).step (σ n) = some (ρ (n + 1))

/-- The callback that starts at the beginning of the run returns with everything handed over. -/
def Returns (ρ : ℕ → CTCPHandle A D) : Prop :=
  ∃ n, (ρ (n + 1)).recvMsg = false ∧ (ρ (n + 1)).msgs.dispatched = (ρ (n + 1)).msgs.pushed

variable {s} {t : CTCPHandle A D} {e : LoopEvent A D} {ρ : ℕ → CTCPHandle A D}
  {σ : ℕ → LoopEvent A D}

/-! ## The callback does not return -/

/-- The loop thread is in `AsyncRecvMsg`, and `DispatchThreadMsg` has not returned. -/
def Captured (s : CTCPHandle A D) : Prop := s.recvMsg = true ∧ s.msgs.line ≠ .ret

theorem Captured.withMsgs (h : s.Captured) {e : QueueEvent A D} (hstep : s.withMsgs e = some t) :
    t.Captured := by
  obtain ⟨msgs, hmsgs, rfl⟩ := Option.map_eq_some_iff.1 hstep
  exact ⟨h.1, CThreadMsgBase.step_line h.2 hmsgs⟩

/-- **Nothing brings the loop thread back.** -/
theorem Captured.step (h : s.Captured) (hstep : s.step e = some t) : t.Captured := by
  cases e with
  | create a msg link => exact h.withMsgs hstep
  | push a => exact h.withMsgs hstep
  | asyncRecvMsg =>
    rw [CTCPHandle.step, if_pos h.1] at hstep
    cases hstep
  | dispatch =>
    rw [CTCPHandle.step, if_pos h.1, if_neg h.2] at hstep
    exact h.withMsgs hstep
  | network =>
    rw [CTCPHandle.step, if_pos h.1] at hstep
    cases hstep

theorem captured_of_asyncRecvMsg (hstep : s.step .asyncRecvMsg = some t) : t.Captured := by
  obtain ⟨-, hstep⟩ := Option.ite_none_left_eq_some.1 hstep
  cases hstep
  exact ⟨rfl, Line.noConfusion⟩

/-- A captured loop thread always has a next step. -/
theorem Captured.exists_dispatch (h : s.Captured) : ∃ t, s.step .dispatch = some t := by
  refine ⟨{ s with msgs := s.msgs.run s.msgs.dispatchThreadMsg }, ?_⟩
  rw [CTCPHandle.step, if_pos h.1, if_neg h.2]
  rfl

/-- All states of the run after the first one. -/
theorem IsRun.captured (hrun : IsRun ρ σ) (hstart : σ 0 = .asyncRecvMsg) (n : ℕ) :
    (ρ (n + 1)).Captured := by
  induction n with
  | zero => exact captured_of_asyncRecvMsg (hstart ▸ hrun 0)
  | succ n ih => exact ih.step (hrun (n + 1))

theorem IsRun.recvMsg (hrun : IsRun ρ σ) (hstart : σ 0 = .asyncRecvMsg) : ¬ Returns ρ := by
  rintro ⟨n, hrecv, -⟩
  exact Bool.noConfusion ((hrun.captured hstart n).1.symm.trans hrecv)

/-- **`AsyncRecvMsg` does not return**, whatever the queue holds and whoever appends to it, and no
callback of the network runs any more. -/
theorem not_returns (hrun : IsRun ρ σ) (hstart : σ 0 = .asyncRecvMsg) :
    ¬ Returns ρ ∧ ∀ n, (ρ (n + 1)).step .network = none := by
  refine ⟨hrun.recvMsg hstart, fun n => ?_⟩
  rw [CTCPHandle.step, if_pos (hrun.captured hstart n).1]

/-- A handle whose queue holds one message. -/
def oneMessage : CTCPHandle ℕ ℕ where
  msgs :=
    let s := CThreadMsgBase.start.createMsg 0 ⟨5, 1, 50⟩ none
    s.run (s.pushBackMsg 0)
  recvMsg := false
  network := 0

/-- libuv calls `AsyncRecvMsg`, and the producers do nothing more. -/
def recvOnly (n : ℕ) : LoopEvent ℕ ℕ := if n = 0 then .asyncRecvMsg else .dispatch

/-- Its run. -/
def recvOnlyRun : ℕ → CTCPHandle ℕ ℕ
  | 0 => oneMessage
  | n + 1 => ((recvOnlyRun n).step (recvOnly n)).getD (recvOnlyRun n)

theorem recvOnlyRun_next {n : ℕ} {t : CTCPHandle ℕ ℕ}
    (ht : (recvOnlyRun (n + 1)).step .dispatch = some t) : recvOnlyRun (n + 2) = t := by
  have hevent : recvOnly (n + 1) = .dispatch := if_neg n.succ_ne_zero
  rw [recvOnlyRun, hevent, ht, Option.getD_some]

theorem recvOnlyRun_captured (n : ℕ) : (recvOnlyRun (n + 1)).Captured := by
  induction n with
  | zero => exact captured_of_asyncRecvMsg (s := recvOnlyRun 0) rfl
  | succ n ih =>
    obtain ⟨t, ht⟩ := ih.exists_dispatch
    exact recvOnlyRun_next ht ▸ ih.step ht

theorem isRun_recvOnly : IsRun recvOnlyRun recvOnly := by
  intro n
  cases n with
  | zero => rfl
  | succ n =>
    obtain ⟨t, ht⟩ := (recvOnlyRun_captured n).exists_dispatch
    exact ht.trans (congrArg some (recvOnlyRun_next ht).symm)

/-- The callback is stuck after its only message. -/
theorem recvOnly_not_returns : IsRun recvOnlyRun recvOnly ∧ recvOnly 0 = .asyncRecvMsg ∧
    (∀ n, 0 < n → recvOnly n = .dispatch) ∧ ¬ Returns recvOnlyRun :=
  ⟨isRun_recvOnly, rfl, fun _ hn => if_neg hn.ne', isRun_recvOnly.recvMsg rfl⟩

/-- No callback of the network runs after it. -/
theorem recvOnly_captures :
    ¬ Returns recvOnlyRun ∧ ∀ n, (recvOnlyRun (n + 1)).step .network = none :=
  not_returns isRun_recvOnly rfl

/-! ## The messages are handed over -/

theorem sound_withMsgs {log : List (ℕ × Msg D)} (h : s.msgs.Sound log) {e : QueueEvent A D}
    (hstep : s.withMsgs e = some t) : t.msgs.Sound log := by
  obtain ⟨msgs, hmsgs, rfl⟩ := Option.map_eq_some_iff.1 hstep
  exact h.step hmsgs

/-- The queue stays sound while the callback runs. -/
theorem Captured.sound {log : List (ℕ × Msg D)} (hcaptured : s.Captured) (h : s.msgs.Sound log)
    (hstep : s.step e = some t) : t.msgs.Sound log := by
  cases e with
  | create a msg link => exact sound_withMsgs h hstep
  | push a => exact sound_withMsgs h hstep
  | asyncRecvMsg =>
    rw [CTCPHandle.step, if_pos hcaptured.1] at hstep
    cases hstep
  | dispatch =>
    rw [CTCPHandle.step, if_pos hcaptured.1, if_neg hcaptured.2] at hstep
    exact sound_withMsgs h hstep
  | network =>
    rw [CTCPHandle.step, if_pos hcaptured.1] at hstep
    cases hstep

theorem IsRun.sound (hrun : IsRun ρ σ) (hstart : σ 0 = .asyncRecvMsg)
    (hsound : (ρ 0).msgs.Sound []) (hline : (ρ 0).msgs.line = .outer) (n : ℕ) :
    (ρ (n + 1)).msgs.Sound [] := by
  induction n with
  | zero =>
    obtain ⟨-, hstep⟩ := Option.ite_none_left_eq_some.1 (hstart ▸ hrun 0)
    rw [← Option.some.inj hstep]
    show CThreadMsgBase.Sound [] { (ρ 0).msgs with line := .outer }
    rwa [← hline]
  | succ n ih => exact (hrun.captured hstart n).sound ih (hrun (n + 1))

/-- **The callback hands over everything** that is in the queue when it starts or is appended while it
runs, when the producers come to an end and the loop thread goes on. -/
theorem eventually_dispatched (hrun : IsRun ρ σ) (hstart : σ 0 = .asyncRecvMsg)
    (hsound : (ρ 0).msgs.Sound []) (hline : (ρ 0).msgs.line = .outer) {N : ℕ}
    (hfinite : ∀ n, N ≤ n → σ n = .dispatch) :
    ∃ n, N ≤ n ∧ (ρ (n + 1)).msgs.dispatched = (ρ (n + 1)).msgs.pushed := by
  suffices hmain : ∀ m n, N ≤ n → (ρ (n + 1)).msgs.effort < m →
      ∃ n, N ≤ n ∧ (ρ (n + 1)).msgs.dispatched = (ρ (n + 1)).msgs.pushed from
    hmain _ N le_rfl (Nat.lt_succ_self _)
  intro m
  induction m with
  | zero => exact fun n hn hm => absurd hm (Nat.not_lt_zero _)
  | succ m ih =>
    intro n hn hm
    by_cases hdone : (ρ (n + 1)).msgs.dispatched = (ρ (n + 1)).msgs.pushed
    · exact ⟨n, hn, hdone⟩
    · obtain ⟨-, v, hv, -⟩ := hrun.sound hstart hsound hline n
      obtain ⟨t, v', ht, -⟩ := hv.run
      have hcaptured := hrun.captured hstart n
      have hnext : (ρ (n + 2)).msgs = t := by
        have hstep := hrun (n + 1)
        rw [hfinite (n + 1) (hn.trans n.le_succ), CTCPHandle.step, if_pos hcaptured.1,
          if_neg hcaptured.2, withMsgs, CThreadMsgBase.step, CThreadMsgBase.run, ht] at hstep
        rw [← Option.some.inj hstep]
        rfl
      refine ih (n + 1) (hn.trans n.le_succ) ?_
      rw [hnext]
      exact (hv.effort_lt ht hdone).trans_le (Nat.lt_succ_iff.1 hm)

end CTCPHandle

end SimpleUv
