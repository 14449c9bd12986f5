import SimpleUv.MsgFraming.Safety

/-!
# Read errors

`uv_stream_msg_free_buffer` clears `buf` and `alloc_size`, but not `filled`. Every other path keeps a
reader without a buffer empty (`Empty.alloc`, `Empty.read`). So a released buffer always holds no
bytes exactly when every error comes between messages (`released_empty_iff`).
-/

namespace SimpleUv

open Foundations

namespace UvMsg

variable {B : Build} {cb : AllocCb} {s t : UvMsg}

/-- A released buffer holds no bytes. -/
def Empty (s : UvMsg) : Prop := s.buf = none → s.allocSize = 0 ∧ s.filled = 0

theorem Empty.of_some {b : UvBuf} (h : s.buf = some b) : s.Empty := by
  intro hbuf
  rw [h] at hbuf
  cases hbuf

theorem Empty.realloc (h : s.Empty) {n : ℕ} {ok : Bool} (ht : s.realloc B cb n = some (t, ok)) :
    t.Empty := by
  unfold UvMsg.realloc at ht
  split at ht
  · cases ht
    exact h
  · split_ifs at ht
    · cases ht
      exact h
    · simp only [Option.bind_eq_bind, Option.bind_eq_some_iff, Option.some.injEq] at ht
      obtain ⟨bytes, -, b, -, ht⟩ := ht
      cases ht
      exact .of_some rfl

theorem Empty.firstAlloc (h : s.Empty) : (s.firstAlloc cb).Empty := by
  unfold UvMsg.firstAlloc
  split
  · exact h
  · split
    · exact h
    · exact .of_some rfl

theorem Empty.offer (h : s.Empty) {b : UvBuf} {r : Option StreamBuf}
    (ht : s.offer B cb b = some (t, r)) : t.Empty := by
  -- the buffer is reallocated, or stays
  have hdone : ∀ {n : ℕ} {f : UvMsg × Bool → Option StreamBuf},
      ((s.realloc B cb n).bind fun x => some (x.1, f x)) = some (t, r) → t.Empty := by
    intro n f hbind
    simp only [Option.bind_eq_some_iff, Option.some.injEq] at hbind
    obtain ⟨⟨u, ok⟩, hr, hu⟩ := hbind
    cases hu
    exact h.realloc hr
  unfold UvMsg.offer at ht
  simp only [Option.bind_eq_bind] at ht
  by_cases hfour : 4 ≤ s.filled
  · rw [if_pos hfour] at ht
    obtain ⟨size, -, ht⟩ := Option.bind_eq_some_iff.1 ht
    by_cases hgrow : s.allocSize < toInt (size + 4)
    · rw [if_pos hgrow] at ht
      exact hdone ht
    · rw [if_neg hgrow] at ht
      cases ht
      exact h
  · rw [if_neg hfour] at ht
    by_cases hgrow : s.allocSize < 4
    · rw [if_pos hgrow] at ht
      exact hdone ht
    · rw [if_neg hgrow] at ht
      cases ht
      exact h

theorem Empty.alloc (h : s.Empty) {r : Option StreamBuf} (ht : s.alloc B cb = some (t, r)) :
    t.Empty := by
  unfold UvMsg.alloc at ht
  dsimp only at ht
  split at ht
  · cases ht
    exact h.firstAlloc
  · exact h.firstAlloc.offer ht

theorem empty_afterLoop {b : UvBuf} (hb : s.buf = some b) {l : ReadLoop}
    (ht : s.afterLoop b l = some t) : t.Empty := by
  unfold UvMsg.afterLoop at ht
  dsimp only at ht
  split_ifs at ht with hmove hzero
  · simp only [Option.bind_eq_bind, Option.bind_eq_some_iff, Option.some.injEq] at ht
    obtain ⟨bytes, -, b', -, rfl⟩ := ht
    exact .of_some rfl
  · cases ht
    exact fun _ => ⟨rfl, hzero⟩
  · cases ht
    exact .of_some hb

/-- **`uv_stream_msg_read`** without an error releases the buffer when no bytes are left. -/
theorem empty_read {b : UvBuf} (hb : s.buf = some b) {n : ℕ} {calls : List ReadCb}
    (ht : s.read B n = .done t calls) : t.Empty := by
  unfold UvMsg.read at ht
  split_ifs at ht with hzero hneg
  · cases ht
    exact .of_some hb
  · omega
  · dsimp only at ht
    split at ht
    · cases ht
    · cases ht
    · split at ht
      · cases ht
      · next hafter =>
        cases ht
        rw [hb] at hafter
        exact empty_afterLoop rfl hafter

end UvMsg

namespace MsgSession

variable {B : Build} {cb : AllocCb} {s t : MsgSession}

/-- What the reader holds has arrived since the last error, and so has what it has delivered. -/
def Consistent (s : MsgSession) : Prop :=
  s.msg.pending = (msgDecoder.run s.current).2 ∧
    ∃ before, s.calls = before ++ (msgDecoder.run s.current).1.map .message

theorem receive_buf {msg u : UvMsg} {o : StreamBuf} {data : List Byte}
    (h : msg.receive o data = some u) : ∃ b, u.buf = some b := by
  unfold UvMsg.receive at h
  obtain ⟨b, -, h⟩ := Option.bind_eq_some_iff.1 h
  split_ifs at h
  obtain ⟨b', -, h⟩ := Option.bind_eq_some_iff.1 h
  cases h
  exact ⟨b', rfl⟩

theorem empty_afterRead {r : UvMsg.ReadResult} (h : s.msg.Empty)
    (hr : ∀ u calls, r = .done u calls → u.Empty) : (s.afterRead r).msg.Empty := by
  cases r with
  | done u calls => exact hr u calls rfl
  | fault | outOfFuel => exact h

/-- **A released buffer stays empty** unless an error comes when bytes are held. -/
theorem empty_step (h : s.msg.Empty) {e : Event} (hok : AtBoundary s e)
    (hstep : s.step B cb e = some t) : t.msg.Empty := by
  cases e with
  | alloc =>
    obtain rfl := step_alloc hstep
    unfold afterAlloc
    split
    · exact h
    · next halloc => exact h.alloc halloc
    · next halloc => exact h.alloc halloc
  | read data =>
    obtain ⟨o, -, -, ⟨-, rfl⟩ | ⟨u, hreceive, rfl⟩⟩ := step_read hstep
    · exact h
    · obtain ⟨b, hb⟩ := receive_buf hreceive
      exact empty_afterRead h fun v calls hread => UvMsg.empty_read hb hread
  | error nread =>
    obtain rfl := step_error hstep
    exact fun _ => ⟨rfl, hok nread rfl⟩

/-- **An error when bytes are held** leaves a released buffer that is not empty. -/
theorem not_empty_error {e : Event} (hok : ¬ AtBoundary s e) (hstep : s.step B cb e = some t) :
    ¬ t.msg.Empty := by
  unfold AtBoundary at hok
  push Not at hok
  obtain ⟨nread, rfl, hfilled⟩ := hok
  obtain rfl := step_error hstep
  exact fun hempty => hfilled (hempty rfl).2

/-- **A read error leaves the reader consistent** exactly when it comes between messages. Then the
reader interprets only bytes that have arrived since. -/
theorem released_empty_iff (B : Build) (cb : AllocCb) (es : List Event) :
    (Always (step B cb) (fun s => s.msg.Empty) start es ↔ Along (step B cb) AtBoundary start es) ∧
      (cb.Bounded → Along (step B cb) HonestStep start es → Along (step B cb) AtBoundary start es →
        Always (step B cb) Consistent start es) := by
  constructor
  · exact always_iff_along (A := fun _ => True) (I := fun s => s.msg.Empty)
      (fun _ _ _ h _ hok hstep => empty_step h hok hstep)
      (fun _ _ _ _ _ hok hstep => not_empty_error hok hstep) (fun _ h => h)
      (fun _ => ⟨rfl, rfl⟩) fun _ _ => trivial
  · intro hcb hhonest hbound
    refine Always.mono (fun s h => ?_) (always_of_along (I := fun s => ∃ before, Tracks before s)
      (fun _ _ _ h hok hstep => tracks_step h hcb hok.1 hok.2 hstep) ⟨[], tracks_start⟩
      (hbound.and hhonest))
    obtain ⟨before, h⟩ := h
    exact ⟨h.pending, before, h.calls⟩

/-- An end of file inside a message. The reader has no buffer, and five bytes in it. The next region
that it offers begins behind them, and its length is negative. -/
theorem error_keeps_bytes :
    (exec (step zeroBuild eightBytes) start [.alloc, .read [0, 0, 0, 5, 1], .error (-4095)]).map
        (fun s => (s.msg.buf, s.msg.filled)) = some (none, 5) ∧
      (exec (step zeroBuild eightBytes) start
        [.alloc, .read [0, 0, 0, 5, 1], .error (-4095), .alloc]).map MsgSession.phase =
          some (.offered ⟨5, 2 ^ 64 - 1⟩) ∧
      ¬ Always (step zeroBuild eightBytes) (fun s => s.msg.Empty) start
        [.alloc, .read [0, 0, 0, 5, 1], .error (-4095)] := by
  refine ⟨by decide, by decide +kernel, fun h => ?_⟩
  have hend := h.last (t := _) rfl
  exact absurd (hend rfl).2 (by decide)

end MsgSession

end SimpleUv
