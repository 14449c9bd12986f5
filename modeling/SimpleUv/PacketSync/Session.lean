import SimpleUv.PacketSync.RoundTrip

/-!
# A parser in a session

`Tracks p xs out` relates a parser to the stream `xs` a connection has carried and the packets `out`
it was given for it: up to bytes of an earlier connection that start no frame, `xs` is the packets
and what the parser holds. It survives calls on more of the stream (`Tracks.recv`), and it can be
started again on a new connection when the parser holds nothing that starts a frame
(`Tracks.restart`).
-/

namespace SimpleUv

open Foundations

/-- The lengths on the stream: announced lengths survive their conversions, and no rejected frame
makes the read buffer longer than `2 ^ 31`. -/
def InRange (B : Build) (xs : List Byte) : Prop :=
  (reference B serverPacketHead serverPacketTail).Everywhere
    (fun ys => LengthAtMost B serverPacketHead serverPacketTail (2 ^ 31 - 2) ys ∧
      RejectAtMost B serverPacketHead serverPacketTail (· == serverPacketTail)
        (2 ^ 31 - B.headLen - 1) ys) xs

/-- What a fresh parser delivers on a sequence of chunks. -/
def FreshDelivers (B : Build) (cs : List (Chunk B)) (out : List Packet) : Prop :=
  ∀ u, ∃ q ds, (CPacketSync.fresh u serverPacketHead serverPacketTail).feed B cs = .done q ds ∧
    ds.map Delivery.packet = out

/-- What arrived on a connection, and the packets `ParsePacket` was given. -/
structure Connection (B : Build) where
  received : List (Chunk B)
  parsed : List Packet

section InRange

variable {B : Build} {xs ys : List Byte}

theorem InRange.nil (B : Build) : InRange B [] :=
  .of_decide_none ⟨.of_none rfl, fun c hc => by cases hc⟩ rfl

theorem InRange.of_steps {out : List Packet} (h : InRange B xs)
    (hs : (reference B serverPacketHead serverPacketTail).Steps xs out ys) : InRange B ys :=
  Decoder.Everywhere.of_steps h hs

theorem InRange.of_append (h : InRange B (xs ++ ys)) : InRange B xs :=
  Decoder.Everywhere.of_append (fun _ _ h => ⟨h.1.of_append, h.2.of_append⟩) h

theorem InRange.append (h : InRange B xs)
    (hnil : ((reference B serverPacketHead serverPacketTail).run xs).2 = []) (hy : InRange B ys) :
    InRange B (xs ++ ys) :=
  Decoder.Everywhere.append (fun _ _ hd h => ⟨h.1.append hd _, h.2.append hd _⟩) h hnil hy

theorem InRange.lengths (h : InRange B xs) :
    (signedScan B serverPacketHead serverPacketTail).Everywhere
      (LengthAtMost B serverPacketHead serverPacketTail (2 ^ 31 - 2)) xs := by
  rw [signedScan_program]
  exact fun out ys hs => (h out ys hs).1

theorem InRange.roomFor (h : InRange B xs) :
    CPacketSync.RoomFor B serverPacketHead serverPacketTail (2 ^ 31) xs := by
  right
  rw [signedScan_program, signedTest_eq (by decide)]
  exact fun out ys hs => (h out ys hs).2

theorem inRange_wires (os : List (Outgoing B)) : InRange B (wires os) := by
  refine everywhere_wires ⟨.of_none rfl, fun c hc => by cases hc⟩ (fun o ys => ⟨?_, ?_⟩) os
  · intro c hc
    rw [o.candidate_wire] at hc
    obtain rfl := Option.some.inj hc
    rw [o.truncate_checked.2.2, ← o.datalen_payload]
    exact o.datalen_le
  · intro c _ hd
    rw [o.decide_wire] at hd
    simp at hd

/-- On a stream in range, a fresh parser delivers what the reference parser delivers. -/
theorem freshDelivers_iff {cs : List (Chunk B)} (h : InRange B (streamOf cs)) (out : List Packet) :
    FreshDelivers B cs out ↔
      out = ((reference B serverPacketHead serverPacketTail).run (streamOf cs)).1 := by
  have key : FreshDelivers B cs
      ((reference B serverPacketHead serverPacketTail).run (streamOf cs)).1 := by
    intro u
    obtain ⟨q, ds, hf, -, hs, hrun⟩ := CPacketSync.feed_of_bounded le_rfl cs
      (CPacketSync.inv_fresh B u serverPacketHead serverPacketTail (by decide)) h.roomFor rfl h.lengths
    refine ⟨q, ds, hf, ?_⟩
    rw [CPacketSync.map_packet_eq_run hs hrun, signedScan_program, CPacketSync.pending_fresh,
      List.nil_append]
  constructor
  · intro hout
    obtain ⟨q, ds, hf, hds⟩ := hout zeroUninit
    obtain ⟨q', ds', hf', hds'⟩ := key zeroUninit
    rw [hf] at hf'
    cases hf'
    rw [← hds, hds']
  · rintro rfl
    exact key

end InRange

/-- The parser has delivered `out` on the stream `xs` of its session. `residue` is what an earlier
session left. -/
structure Tracks (B : Build) (p : CPacketSync) (xs : List Byte) (out : List Packet) : Prop where
  inv : CPacketSync.Inv B serverPacketHead serverPacketTail (2 ^ 31) p
  range : InRange B xs
  stream : ∃ residue, InRange B residue ∧
    (reference B serverPacketHead serverPacketTail).run residue = ([], []) ∧
    (reference B serverPacketHead serverPacketTail).Steps (residue ++ xs) out (p.pending B)
  quiet : ((reference B serverPacketHead serverPacketTail).run (p.pending B)).1 = []

namespace Tracks

variable {B : Build} {p : CPacketSync} {xs : List Byte} {out : List Packet}

theorem fresh (B : Build) (u : Uninit) :
    Tracks B (.fresh u serverPacketHead serverPacketTail) [] [] where
  inv := CPacketSync.inv_fresh B u serverPacketHead serverPacketTail (by decide)
  range := .nil B
  stream := ⟨[], .nil B, rfl, .refl _⟩
  quiet := rfl

/-- What was delivered is what the reference parser delivers on the stream of the session. -/
theorem out_eq (h : Tracks B p xs out) :
    out = ((reference B serverPacketHead serverPacketTail).run xs).1 := by
  obtain ⟨residue, -, hrun, hs⟩ := h.stream
  have h₁ := hs.run_eq
  rw [Decoder.run_append, hrun, h.quiet, List.append_nil] at h₁
  exact (congrArg Prod.fst h₁).symm

/-- What the parser holds in the end is what the reference parser waits on. -/
theorem rest_eq (h : Tracks B p xs out) :
    ((reference B serverPacketHead serverPacketTail).run (p.pending B)).2 =
      ((reference B serverPacketHead serverPacketTail).run xs).2 := by
  obtain ⟨residue, -, hrun, hs⟩ := h.stream
  have h₁ := hs.run_eq
  rw [Decoder.run_append, hrun] at h₁
  exact (congrArg Prod.snd h₁).symm

/-- **A call on more of the stream.** -/
theorem recv (h : Tracks B p xs out) (c : Chunk B) (hc : InRange B (xs ++ c.bytes)) :
    ∃ q ds, p.recvdata B c.bytes = .done q ds ∧
      Tracks B q (xs ++ c.bytes) (out ++ ds.map Delivery.packet) := by
  obtain ⟨residue, hr, hrun, hs⟩ := h.stream
  have hs' := hs.append c.bytes
  rw [List.append_assoc] at hs'
  have hrange := (hr.append (by rw [hrun]) hc).of_steps hs'
  obtain ⟨q, ds, hcall, hq, hsteps, hquiet⟩ := CPacketSync.recvdata_spec
    (CPacketSync.le_maxCap B le_rfl) c h.inv hrange.roomFor (fun r j hr _ => by
      have hv : CPacketSync.Visit B p [c] c r j := .now hr
      refine hv.survives le_rfl h.inv ?_ ?_ <;>
        rw [streamOf_cons, streamOf_nil, List.append_nil]
      · exact hrange.roomFor
      · exact hrange.lengths)
  rw [signedScan_program] at hsteps hquiet
  exact ⟨q, ds, hcall, hq, hc, ⟨residue, hr, hrun, hs'.trans hsteps⟩, hquiet⟩

/-- **A new session** on a parser that holds nothing that starts a frame. -/
theorem restart (h : Tracks B p xs out)
    (hnil : ((reference B serverPacketHead serverPacketTail).run (p.pending B)).2 = []) :
    Tracks B p [] [] := by
  obtain ⟨residue, hr, hrun, hs⟩ := h.stream
  refine ⟨h.inv, .nil B, ⟨p.pending B, ?_, Prod.ext h.quiet hnil, ?_⟩, h.quiet⟩
  · exact (hr.append (by rw [hrun]) h.range).of_steps hs
  · rw [List.append_nil]
    exact .refl _

/-- Starting a parser that was started before changes nothing. -/
theorem start_eq (h : Tracks B p xs out) :
    p.setPacketCb.start serverPacketHead serverPacketTail = p := by
  have hb := h.inv.toBuffers
  have h₁ := hb.cb
  have h₂ := hb.head_eq
  have h₃ := hb.tail_eq
  cases p
  simp only at h₁ h₂ h₃
  subst h₁ h₂ h₃
  rfl

end Tracks

end SimpleUv
