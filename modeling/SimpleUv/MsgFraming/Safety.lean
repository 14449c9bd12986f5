import SimpleUv.MsgFraming.Callbacks

/-!
# Hostile lengths

`Tracks` is the invariant of the reader on a stream: what it holds is what the decoder of the messages
waits on, and it has delivered what the decoder has returned. The callbacks keep it as long as the
lengths are honest and errors come between messages. On such runs every callback is safe exactly when
the lengths are honest (`safe_iff_honest`).
-/

namespace SimpleUv

open Foundations

namespace MsgSession

variable {B : Build} {cb : AllocCb} {before : List ReadCb} {s t : MsgSession}

/-! ## The steps -/

theorem step_alloc (h : s.step B cb .alloc = some t) : t = s.afterAlloc B cb := by
  unfold step callback at h
  split_ifs at h
  exact (Option.some.inj h).symm

theorem step_read {data : List Byte} (h : s.step B cb (.read data) = some t) :
    ∃ o, s.phase = .offered o ∧ data.length ≤ o.len ∧
      (s.msg.receive o data = none ∧ t = { s with crashed := true } ∨
        ∃ msg, s.msg.receive o data = some msg ∧
          t = { s with current := s.current ++ data }.afterRead (msg.read B data.length)) := by
  unfold step at h
  split_ifs at h
  unfold callback at h
  cases hphase : s.phase with
  | idle | refused =>
    rw [hphase] at h
    cases h
  | offered o =>
    simp only [hphase, Option.ite_none_right_eq_some] at h
    obtain ⟨hdata, h⟩ := h
    refine ⟨o, rfl, hdata, ?_⟩
    cases hreceive : s.msg.receive o data with
    | none =>
      rw [hreceive] at h
      exact .inl ⟨rfl, (Option.some.inj h).symm.trans (by rw [← hphase])⟩
    | some msg =>
      rw [hreceive] at h
      exact .inr ⟨msg, rfl, (Option.some.inj h).symm.trans (by rw [← hphase])⟩

theorem step_error {nread : ℤ} (h : s.step B cb (.error nread) = some t) :
    t = { s with
      msg := s.msg.freeBuffer, phase := .idle, calls := s.calls ++ [.error nread], current := [] } := by
  unfold step at h
  split_ifs at h
  simp only [callback, Option.ite_none_right_eq_some, Option.some.injEq] at h
  obtain ⟨hneg, rfl⟩ := h
  rw [UvMsg.read, if_neg (by omega), if_pos hneg]
  rfl

/-! ## The invariant -/

/-- The reader has delivered the messages in the bytes received since the last error, behind the calls
before, and holds the rest. -/
structure Tracks (before : List ReadCb) (s : MsgSession) : Prop where
  running : s.crashed = false
  inv : s.msg.Inv
  pending : s.msg.pending = (msgDecoder.run s.current).2
  calls : s.calls = before ++ (msgDecoder.run s.current).1.map .message
  region : ∀ o, s.phase = .offered o →
    ∃ b f, s.msg.Holds b f ∧ o.base = f ∧ 1 ≤ o.len ∧ f + o.len ≤ b.len

/-- The lengths in the bytes that arrive are honest. -/
def HonestStep (s : MsgSession) (e : Event) : Prop :=
  ∀ data, e = .read data → data ≠ [] → msgDecoder.Everywhere Honest (s.msg.pending ++ data)

/-- An error comes when no bytes are held. -/
def AtBoundary (s : MsgSession) (e : Event) : Prop := ∀ nread, e = .error nread → s.msg.filled = 0

/-- A callback is safe: the region offered lies inside the buffer, and the loop is safe. -/
def SafeStep (B : Build) (cb : AllocCb) (s : MsgSession) : Event → Prop
  | .alloc => ∀ t, s.step B cb .alloc = some t → t.crashed = false ∧
      ∀ o, t.phase = .offered o → ∃ b, t.msg.buf = some b ∧ 0 ≤ o.base ∧ o.base + o.len ≤ b.len
  | .read data => data ≠ [] → ∀ o u b, s.phase = .offered o → s.msg.receive o data = some u →
      u.buf = some b → LoopSafe B b u.allocSize (toInt (u.filled + data.length))
  | .error _ => True

theorem tracks_start : Tracks [] start := by
  have hrun := Decoder.run_of_decide_none decide_msgDecoder_nil
  refine ⟨rfl, .released UvMsg.released_init, ?_, ?_, nofun⟩
  · rw [start, hrun, UvMsg.released_init.pending]
  · rw [start, hrun]
    rfl

/-- **`uv_stream_msg_alloc`** changes nothing of what is tracked. -/
theorem Tracks.alloc (h : Tracks before s) (hcb : cb.Bounded) (hstep : s.step B cb .alloc = some t) :
    Tracks before t ∧ t.current = s.current ∧ (cb.Generous → t.phase ≠ .refused) := by
  have hrunning := h.running
  obtain rfl := step_alloc hstep
  obtain ⟨msg, r, halloc, hoffers, hg⟩ := h.inv.alloc (B := B) hcb
  unfold afterAlloc
  rw [halloc]
  cases r with
  | none =>
    exact ⟨⟨hrunning, hoffers.inv, hoffers.pending.trans h.pending, h.calls, nofun⟩, rfl,
      fun hg' => absurd rfl (hg hg')⟩
  | some o =>
    obtain ⟨b, f, hholds, hbase, hlen, hfit⟩ := hoffers.region o rfl
    simp only
    rw [if_neg (by omega)]
    refine ⟨⟨hrunning, hoffers.inv, hoffers.pending.trans h.pending, h.calls, ?_⟩, trivial,
      fun _ => nofun⟩
    rintro _ ⟨⟩
    exact ⟨b, f, hholds, hbase, hlen, hfit⟩

/-- What libuv leaves in the buffer when it has received data. -/
theorem Tracks.receive (h : Tracks before s) {o : StreamBuf} (ho : s.phase = .offered o)
    {data : List Byte} (hdata : data.length ≤ o.len) :
    ∃ b f u, s.msg.receive o data = some u ∧ u.Holds b f ∧ f + data.length ≤ b.len ∧
      b.base.take (f + data.length) = s.msg.pending ++ data := by
  obtain ⟨b, f, hholds, hbase, -, hfit⟩ := h.region o ho
  obtain ⟨hreceive, hlen, htake⟩ := hholds.receive hbase
    (show f + data.length ≤ b.len by omega)
  have hlen' : (UvBuf.mk (overwrite b.base f data)).len = b.len := hlen
  refine ⟨⟨overwrite b.base f data⟩, f, _, hreceive, ⟨rfl, ?_, hholds.filled, ?_, ?_⟩, ?_, ?_⟩
  · rw [hlen']
    exact hholds.size
  · rw [hlen']
    exact hholds.fits
  · rw [hlen']
    exact hholds.small
  · rw [hlen']
    omega
  · rw [hholds.pending]
    exact htake

/-- The decoder goes on with the bytes that are held. -/
theorem Tracks.steps (h : Tracks before s) (data : List Byte) :
    msgDecoder.Steps (s.current ++ data) (msgDecoder.run s.current).1 (s.msg.pending ++ data) := by
  rw [h.pending]
  exact (Decoder.steps_run s.current).append data

theorem Tracks.run_append (h : Tracks before s) (data : List Byte) :
    msgDecoder.run (s.current ++ data) =
      ((msgDecoder.run s.current).1 ++ (msgDecoder.run (s.msg.pending ++ data)).1,
        (msgDecoder.run (s.msg.pending ++ data)).2) := (h.steps data).run_eq

/-- What is held is waited on. -/
theorem Tracks.run_pending (h : Tracks before s) : msgDecoder.run s.msg.pending = ([], s.msg.pending) :=
  Decoder.run_of_decide_none h.inv.decide

/-- **`uv_stream_msg_read`** delivers what the decoder returns on honest lengths. -/
theorem Tracks.read (h : Tracks before s) {data : List Byte} (hok : HonestStep s (.read data))
    (hstep : s.step B cb (.read data) = some t) :
    Tracks before t ∧ t.current = s.current ++ data ∧ t.phase = .idle := by
  obtain ⟨o, ho, hdata, hcases⟩ := step_read hstep
  obtain ⟨b, f, u, hreceive, hholds, hfit, htake⟩ := h.receive ho hdata
  -- what is read is what the decoder returns on the bytes held and the new ones
  have hread : ∃ v, u.read B data.length =
        .done v ((msgDecoder.run (s.msg.pending ++ data)).1.map .message) ∧
      v.Inv ∧ v.pending = (msgDecoder.run (s.msg.pending ++ data)).2 := by
    by_cases hnil : data = []
    · subst hnil
      rw [List.length_nil, Nat.add_zero, List.append_nil] at htake
      have hpending : u.pending = s.msg.pending := by rw [hholds.pending, htake]
      rw [List.append_nil, h.run_pending]
      refine ⟨u, if_pos rfl, .holds b f hholds ?_ ?_, hpending⟩
      · rw [htake]
        exact h.inv.decide
      · rw [htake]
        exact h.inv.honest
    · have hh := hok data rfl hnil
      rw [← htake] at hh ⊢
      exact hholds.read (List.length_pos_iff.2 hnil) hfit hh
  obtain ⟨v, hread, hinv, hpending⟩ := hread
  rcases hcases with ⟨hnone, -⟩ | ⟨u', hreceive', rfl⟩
  · rw [hreceive] at hnone
    cases hnone
  · rw [hreceive] at hreceive'
    cases hreceive'
    rw [hread]
    refine ⟨⟨h.running, hinv, ?_, ?_, nofun⟩, rfl, rfl⟩
    · show v.pending = (msgDecoder.run (s.current ++ data)).2
      rw [hpending, h.run_append]
    · show s.calls ++ _ = before ++ (msgDecoder.run (s.current ++ data)).1.map _
      rw [h.calls, h.run_append, List.map_append, List.append_assoc]

/-- **An error between messages** leaves a reader without a buffer. -/
theorem Tracks.error (h : Tracks before s) {nread : ℤ} (hok : s.msg.filled = 0)
    (hstep : s.step B cb (.error nread) = some t) : Tracks (s.calls ++ [.error nread]) t := by
  obtain rfl := step_error hstep
  have hreleased : s.msg.freeBuffer.Released := ⟨rfl, rfl, hok⟩
  have hrun := Decoder.run_of_decide_none decide_msgDecoder_nil
  refine ⟨h.running, .released hreleased, ?_, ?_, nofun⟩
  · rw [hreleased.pending, hrun]
  · rw [hrun, List.map_nil, List.append_nil]

/-- **The invariant of the reader** is kept by the steps that meet both conditions. -/
theorem tracks_step (h : ∃ before, Tracks before s) (hcb : cb.Bounded) {e : Event}
    (hbound : AtBoundary s e) (hok : HonestStep s e) (hstep : s.step B cb e = some t) :
    ∃ before, Tracks before t := by
  obtain ⟨before, h⟩ := h
  cases e with
  | alloc => exact ⟨before, (h.alloc hcb hstep).1⟩
  | read data => exact ⟨before, (h.read hok hstep).1⟩
  | error nread => exact ⟨_, h.error (hbound nread rfl) hstep⟩

/-- **A callback is safe exactly on honest lengths.** -/
theorem safeStep_iff (h : ∃ before, Tracks before s) (hcb : cb.Bounded) {e : Event}
    (hstep : s.step B cb e = some t) : SafeStep B cb s e ↔ HonestStep s e := by
  obtain ⟨before, h⟩ := h
  cases e with
  | error nread => exact ⟨fun _ => nofun, fun _ => trivial⟩
  | alloc =>
    refine ⟨fun _ => nofun, fun _ v hv => ?_⟩
    have ht := (h.alloc hcb hv).1
    refine ⟨ht.running, fun o ho => ?_⟩
    obtain ⟨b, f, hholds, hbase, -, hfit⟩ := ht.region o ho
    exact ⟨b, hholds.buf, by omega, by omega⟩
  | read data =>
    obtain ⟨o, ho, hdata, -⟩ := step_read hstep
    obtain ⟨b, f, u, hreceive, hholds, hfit, htake⟩ := h.receive ho hdata
    have hsmall := hholds.small
    have hfilled : toInt (u.filled + data.length) = (f + data.length : ℕ) := by
      rw [hholds.filled, toInt_eq (by omega) (by omega)]
      omega
    have hiff : LoopSafe B b u.allocSize (toInt (u.filled + data.length)) ↔
        msgDecoder.Everywhere Honest (s.msg.pending ++ data) := by
      rw [hfilled, hholds.size, loopSafe_iff hsmall hfit, htake]
    constructor
    · rintro hsafe _ ⟨⟩ hnil
      exact hiff.1 (hsafe hnil o u b ho hreceive hholds.buf)
    · intro hok hnil o' u' b' ho' hreceive' hbuf'
      rw [ho] at ho'
      cases ho'
      rw [hreceive] at hreceive'
      cases hreceive'
      rw [hholds.buf] at hbuf'
      cases hbuf'
      exact hiff.2 (hok data rfl hnil)

/-- **The reader is safe exactly when all lengths are honest.** On a stream on which errors come between
messages every callback is safe if and only if no length in the bytes received is `2 ^ 31 - 4` or more.
The allocator may fail, and return less than is suggested. -/
theorem safe_iff_honest (B : Build) (cb : AllocCb) (hcb : cb.Bounded) (es : List Event)
    (herror : Along (step B cb) AtBoundary start es) :
    Along (step B cb) (SafeStep B cb) start es ↔ Along (step B cb) HonestStep start es :=
  along_iff_along (I := fun s => ∃ before, Tracks before s)
    (fun _ _ _ h hbound hok hstep => tracks_step h hcb hbound hok hstep)
    (fun _ _ _ h _ hstep => safeStep_iff h hcb hstep) ⟨[], tracks_start⟩ herror

/-- An allocator whose buffers have eight bytes. -/
def eightBytes : AllocCb := fun _ _ => some ⟨List.replicate 8 0⟩

theorem eightBytes_bounded : eightBytes.Bounded := by
  rintro i n b - ⟨⟩
  decide

theorem safe_iff_honest_eightBytes :
    Along (step zeroBuild eightBytes) (SafeStep zeroBuild eightBytes) start
        [.alloc, .read [0, 0, 0, 1, 7], .error (-4095)] ↔
      Along (step zeroBuild eightBytes) HonestStep start
        [.alloc, .read [0, 0, 0, 1, 7], .error (-4095)] := by
  refine safe_iff_honest zeroBuild eightBytes eightBytes_bounded _ ?_
  exact .cons rfl nofun (.cons rfl nofun (.cons rfl (fun _ _ => rfl) trivial))

/-- The length `2 ^ 32 - 4` is read as `-4`. The first iteration gives `msg_read_cb` this size, and
takes no byte out of the buffer. -/
theorem not_safe :
    eightBytes.Bounded ∧
      Along (step zeroBuild eightBytes) AtBoundary start [.alloc, .read [255, 255, 255, 252]] ∧
      ¬ Along (step zeroBuild eightBytes) (SafeStep zeroBuild eightBytes) start
        [.alloc, .read [255, 255, 255, 252]] := by
  refine ⟨eightBytes_bounded, .cons rfl nofun (.cons rfl nofun trivial), fun h => ?_⟩
  obtain ⟨hsafe, -⟩ := (h _ rfl).2 _ rfl
  have hloop := hsafe (by decide) _ _ _ rfl rfl rfl
  have hcall := (hloop.sound _ (.refl _)).calls 4 (-4) ⟨0, 4⟩ (by decide)
  omega

end MsgSession

end SimpleUv
