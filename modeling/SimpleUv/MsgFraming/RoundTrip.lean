import SimpleUv.MsgFraming.Safety

/-!
# Round trip of the messages

What `uv_msg_send` puts on the stream is the stream of the decoder of the messages (`sent_eq`), on
either byte order. So the reader delivers every message when its last byte has arrived, in whatever
portions the stream arrives (`roundTrip`).
-/

namespace SimpleUv

open Foundations

/-- The size of a message that the reader can take. -/
def Sendable (m : List Byte) : Prop := 1 ≤ m.length ∧ m.length ≤ 2 ^ 31 - 5

/-- The stream of the messages sent with `uv_msg_send`. -/
def sent (B : Build) (msgs : List (List Byte)) : Option (List Byte) :=
  (msgs.mapM fun m => uvMsgSend B (some m) m.length).map List.flatten

/-- **`uv_msg_send`** puts the length in front, on either byte order. -/
theorem uvMsgSend_eq (B : Build) {m : List Byte} (h : Sendable m) :
    uvMsgSend B (some m) m.length = some (LengthPrefix.encode 4 m) := by
  obtain ⟨hpos, hle⟩ := h
  have hsize : (BitVec.ofInt 32 m.length).toNat = m.length := by
    rw [BitVec.ofInt_natCast, BitVec.toNat_ofNat, Nat.mod_eq_of_lt (by omega)]
  have htake : m.take (m.length : ℤ).toNat = m := List.take_length
  simp only [uvMsgSend, Option.bind_eq_bind, Option.bind_some]
  rw [if_neg (by omega), image_htonl, hsize, htake]
  rfl

theorem sent_eq (B : Build) {msgs : List (List Byte)} (h : ∀ m ∈ msgs, Sendable m) :
    sent B msgs = some (LengthPrefix.wire 4 msgs) := by
  unfold sent
  induction msgs with
  | nil => rfl
  | cons m msgs ih =>
    obtain ⟨packets, hpackets, hflat⟩ := Option.map_eq_some_iff.1
      (ih fun x hx => h x (List.mem_cons_of_mem m hx))
    simp only [List.mapM_cons, uvMsgSend_eq B (h m List.mem_cons_self), hpackets,
      Option.bind_eq_bind, Option.bind_some, Option.pure_def, Option.map_some, List.flatten_cons,
      hflat, LengthPrefix.wire_cons]

example : sent zeroBuild [[104, 105], [33]] = some [0, 0, 0, 2, 104, 105, 0, 0, 0, 1, 33] := by decide

namespace MsgSession

variable {B : Build} {cb : AllocCb} {msgs : List (List Byte)} {s t : MsgSession}

/-- The reader is faithful to the messages sent: it has delivered those whose last byte has arrived, in
order, and every region it offers lies behind the bytes it holds. -/
structure Faithful (msgs : List (List Byte)) (s : MsgSession) : Prop where
  running : s.crashed = false
  accepts : s.phase ≠ .refused
  calls : ∃ j, s.calls = (msgs.take j).map .message ∧
    LengthPrefix.Complete 4 msgs s.current.length j
  region : ∀ o, s.phase = .offered o →
    1 ≤ o.len ∧ o.base = s.msg.filled ∧ o.base + o.len ≤ s.msg.allocSize
  filled : 0 ≤ s.msg.filled ∧ s.msg.filled ≤ s.msg.allocSize
  size : ∀ b, s.msg.buf = some b → s.msg.allocSize = b.len
  released : s.msg.buf = none → s.msg.filled = 0

/-- The invariant of a run on the stream of the messages, before the events `es`. -/
structure Streams (msgs : List (List Byte)) (es : List Event) (s : MsgSession) : Prop where
  tracks : Tracks [] s
  accepts : s.phase ≠ .refused
  stream : s.current ++ es.flatMap Event.data <+: LengthPrefix.wire 4 msgs

variable {es : List Event} {e : Event}

theorem Streams.faithful (h : Streams msgs es s) (hmsgs : ∀ m ∈ msgs, Sendable m) :
    Faithful msgs s := by
  obtain ⟨j, hrun, hcomplete⟩ := LengthPrefix.run_of_prefix (k := 4) (by norm_num)
    (fun m hm => by have := (hmsgs m hm).2; omega) ((List.prefix_append _ _).trans h.stream)
  refine ⟨h.tracks.running, h.accepts, ⟨j, ?_, hcomplete⟩, ?_, ?_, ?_, ?_⟩
  · rw [h.tracks.calls, List.nil_append]
    exact congrArg _ hrun
  · intro o ho
    obtain ⟨b, f, hholds, hbase, hlen, hfit⟩ := h.tracks.region o ho
    have hfilled := hholds.filled
    have hsize := hholds.size
    omega
  · cases h.tracks.inv with
    | released h' =>
      rw [h'.filled, h'.size]
      omega
    | holds b f h' =>
      have hfits := h'.fits
      rw [h'.filled, h'.size]
      omega
  · intro b hb
    cases h.tracks.inv with
    | released h' =>
      rw [h'.buf] at hb
      cases hb
    | holds b' f h' =>
      rw [h'.buf] at hb
      cases hb
      exact h'.size
  · intro hb
    cases h.tracks.inv with
    | released h' => exact h'.filled
    | holds b f h' =>
      rw [h'.buf] at hb
      cases hb

/-- The lengths in the stream of the messages are honest. -/
theorem Streams.honest (h : Streams msgs (e :: es) s) (hmsgs : ∀ m ∈ msgs, Sendable m) :
    HonestStep s e := by
  rintro data rfl -
  have hpre : s.current ++ data <+: LengthPrefix.wire 4 msgs := by
    refine List.IsPrefix.trans ?_ h.stream
    rw [List.flatMap_cons, ← List.append_assoc]
    exact List.prefix_append _ _
  have hhonest : msgDecoder.Everywhere Honest (s.current ++ data) :=
    LengthPrefix.everywhere_of_prefix (P := (· < 2 ^ 31 - 4)) (by norm_num)
      (fun m hm => by have := (hmsgs m hm).2; omega)
      (fun m hm => by have := (hmsgs m hm).2; omega) hpre
  exact hhonest.of_steps (h.tracks.steps data)

/-- **A callback goes on with the stream.** -/
theorem Streams.callback (h : Streams msgs (e :: es) s) (hcb : cb.Generous)
    (hmsgs : ∀ m ∈ msgs, Sendable m) (herror : ∀ nread, e ≠ .error nread)
    (hstep : s.step B cb e = some t) : Streams msgs es t := by
  have hstream := h.stream
  rw [List.flatMap_cons, ← List.append_assoc] at hstream
  cases e with
  | alloc =>
    obtain ⟨ht, hcurrent, haccepts⟩ := h.tracks.alloc hcb.bounded hstep
    refine ⟨ht, haccepts hcb, ?_⟩
    rw [hcurrent]
    simpa only [Event.data, List.append_nil] using hstream
  | read data =>
    obtain ⟨ht, hcurrent, hphase⟩ := h.tracks.read (h.honest hmsgs) hstep
    refine ⟨ht, by rw [hphase]; nofun, ?_⟩
    rw [hcurrent]
    exact hstream
  | error nread => exact absurd rfl (herror nread)

theorem Streams.always (h : Streams msgs es s) (hcb : cb.Generous) (hmsgs : ∀ m ∈ msgs, Sendable m)
    (herror : ∀ nread, .error nread ∉ es) : Always (step B cb) (Faithful msgs) s es := by
  induction es generalizing s with
  | nil => exact h.faithful hmsgs
  | cons e es ih =>
    refine ⟨h.faithful hmsgs, fun t ht => ?_⟩
    refine ih (h.callback hcb hmsgs (fun nread he => herror nread ?_) ht) fun nread hmem =>
      herror nread (List.mem_cons_of_mem e hmem)
    rw [he]
    exact List.mem_cons_self

/-- **Length-prefixed messages round trip.** Whatever portions the stream arrives in, the reader is
faithful to the messages after every callback. -/
theorem roundTrip (A B : Build) (cb : AllocCb) (hcb : cb.Generous) (msgs : List (List Byte))
    (hmsgs : ∀ m ∈ msgs, Sendable m) :
    ∃ stream, sent A msgs = some stream ∧
      ∀ es : List Event, (∀ nread, .error nread ∉ es) → es.flatMap Event.data <+: stream →
        Always (step B cb) (Faithful msgs) start es := by
  refine ⟨_, sent_eq A hmsgs, fun es herror hstream => ?_⟩
  exact Streams.always ⟨tracks_start, nofun, hstream⟩ hcb hmsgs herror

/-- An allocator that returns what is suggested. -/
def suggestedBytes : AllocCb := fun _ n => some ⟨List.replicate n 0⟩

theorem suggestedBytes_generous : suggestedBytes.Generous := by
  intro i n hn
  have hlen : (UvBuf.mk (List.replicate n 0)).len = n := List.length_replicate
  exact ⟨⟨List.replicate n 0⟩, rfl, by omega, by omega⟩

theorem roundTrip_hello :
    ∃ stream, sent zeroBuild [[104, 105], [33]] = some stream ∧
      ∀ es : List Event, (∀ nread, .error nread ∉ es) → es.flatMap Event.data <+: stream →
        Always (step zeroBuild suggestedBytes) (Faithful [[104, 105], [33]]) start es :=
  roundTrip zeroBuild zeroBuild suggestedBytes suggestedBytes_generous [[104, 105], [33]] (by
    simp [Sendable])

end MsgSession

end SimpleUv
