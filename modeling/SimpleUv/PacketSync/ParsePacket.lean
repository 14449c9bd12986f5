import SimpleUv.PacketSync.Deliveries
import SimpleUv.PacketSync.RoundTrip
import Mathlib.Data.List.Forall2

/-!
# From packets to message objects

`GetPacket` passes the header and the packet buffer to `ParsePacket`, which the macros `BEGIN_UV_BIND`,
`UV_BIND` and `END_UV_BIND` generate: the first entry for the type casts the buffer to its class and
calls `OnUvMessage`. The cast takes as many bytes as the class has, whatever length the packet
announced. The buffer is reused, and behind the payload it has a zero and then what earlier packets left
there, so an object of a class larger than the payload has bytes that are not the packet's.

On a stream of valid packets every handler sees bytes of its own packet only, exactly when no packet is
shorter than the class bound to its type (`handlersSeeOwn_iff`).
-/

namespace SimpleUv

open Foundations

/-- `UV_BIND(MSG_TYPE, MSG_CLASS)`: the type, and the size of the class. -/
structure UvBind where
  msgType : ℕ
  msgClass : ℕ
  deriving DecidableEq

/-- A call of `OnUvMessage`: the entry, and the bytes of the object, `none` where it reaches past the
end of the buffer. -/
structure UvMessage where
  bind : UvBind
  msg : Option (List Byte)

namespace CTCPHandle

/-- `ParsePacket`, for the entries of a class and then of its base classes. `none` is the `-1` of
`CTCPHandle::ParsePacket`, which calls nothing. -/
def parsePacket : List UvBind → NetPacket → List Byte → Option UvMessage
  | [], _, _ => none
  | b :: chain, packet, buf =>
    if b.msgType = packet.type then some ⟨b, load buf buf.length 0 b.msgClass⟩
    else parsePacket chain packet buf

/-- `GetPacket`. -/
def getPacket (chain : List UvBind) (d : Delivery) : Option UvMessage :=
  parsePacket chain d.packethead d.packetdata

/-- The entry for a type. -/
def bound (chain : List UvBind) (type : ℕ) : Option UvBind := chain.find? (·.msgType == type)

/-- The object consists of bytes of the payload: it is its first bytes, as many as the class has. -/
def OwnBytes (payload : List Byte) (m : UvMessage) : Prop :=
  ∃ bytes, m.msg = some bytes ∧ bytes <+: payload

variable {B : Build} {tail : Byte} {chain : List UvBind} {d : Delivery} {m : UvMessage}

theorem parsePacket_eq (chain : List UvBind) (packet : NetPacket) (buf : List Byte) :
    parsePacket chain packet buf =
      (bound chain packet.type).map fun b => ⟨b, load buf buf.length 0 b.msgClass⟩ := by
  induction chain with
  | nil => rfl
  | cons b chain ih =>
    rw [parsePacket, bound]
    by_cases h : b.msgType = packet.type
    · rw [if_pos h, List.find?_cons_of_pos (by simpa using h)]
      rfl
    · rw [if_neg h, List.find?_cons_of_neg (by simpa using h), ih]
      rfl

/-- **An object has bytes of its packet only, exactly when its class is not larger than the payload.** -/
theorem ownBytes_iff (h : CPacketSync.Sound B tail d) (hm : getPacket chain d = some m) :
    OwnBytes d.packet.payload m ↔ m.bind.msgClass ≤ d.packethead.datalen := by
  have hlen : d.packethead.datalen < d.packetdata.length :=
    (List.getElem?_eq_some_iff.1 h.terminated).1
  have hmsg : m.msg = load d.packetdata d.packetdata.length 0 m.bind.msgClass := by
    rw [getPacket, parsePacket_eq, Option.map_eq_some_iff] at hm
    obtain ⟨b, -, rfl⟩ := hm
    rfl
  constructor
  · rintro ⟨bytes, hbytes, hprefix⟩
    rw [hmsg, load] at hbytes
    split_ifs at hbytes with hin
    obtain rfl := Option.some.inj hbytes
    have hle := hprefix.length_le
    rw [length_slice (by omega)] at hle
    exact hle.trans (List.length_take_le _ _)
  · intro hsize
    refine ⟨d.packetdata.take m.bind.msgClass, ?_, ?_⟩
    · rw [hmsg, load_eq (by omega) le_rfl, slice_zero]
    · exact List.take_prefix_take_left hsize

/-! ## Streams of valid packets -/

/-- Every packet of the stream is delivered, and the handler that is called for it sees bytes of its
payload only, whatever the parser finds in its memory and however the stream is cut. -/
def HandlersSeeOwn (B : Build) (chain : List UvBind) (os : List (Outgoing B)) : Prop :=
  ∀ (u : Uninit) (cs : List (Chunk B)), streamOf cs = wires os →
    ∃ q out, (CPacketSync.fresh u serverPacketHead serverPacketTail).feed B cs = .done q out ∧
      List.Forall₂ (fun o d => ∀ m, getPacket chain d = some m → OwnBytes o.payload m) os out

/-- No packet is shorter than the class bound to its type. -/
def ClassesFit (chain : List UvBind) (os : List (Outgoing B)) : Prop :=
  ∀ o ∈ os, ∀ b, bound chain (o.packet.type % 2 ^ 32) = some b → b.msgClass ≤ o.payload.length

/-- A delivered packet. -/
theorem ownBytes_delivered (h : CPacketSync.Sound B tail d) {o : Outgoing B}
    (hd : d.packet = o.delivered) : (∀ m, getPacket chain d = some m → OwnBytes o.payload m) ↔
      ∀ b, bound chain (o.packet.type % 2 ^ 32) = some b → b.msgClass ≤ o.payload.length := by
  have htype : d.packethead.type = o.packet.type % 2 ^ 32 :=
    congrArg (fun x => x.packethead.type) hd
  have hlen : d.packethead.datalen = o.payload.length := by
    rw [show d.packethead = _ from congrArg Packet.packethead hd]
    exact o.truncate_checked.2.2
  have hpayload : d.packet.payload = o.payload := congrArg Packet.payload hd
  have hget : getPacket chain d = (bound chain d.packethead.type).map _ := parsePacket_eq _ _ _
  constructor
  · intro hown b hb
    rw [htype, hb, Option.map_some] at hget
    have hbytes := hown _ hget
    rw [← hpayload, ownBytes_iff h hget, hlen] at hbytes
    exact hbytes
  · intro hfit m hm
    rw [← hpayload, ownBytes_iff h hm, hlen]
    rw [hm] at hget
    obtain ⟨b, hb, rfl⟩ := Option.map_eq_some_iff.1 hget.symm
    rw [htype] at hb
    exact hfit b hb

theorem forall₂_ownBytes {os : List (Outgoing B)} {out : List Delivery}
    (hout : out.map Delivery.packet = os.map Outgoing.delivered)
    (hs : ∀ d ∈ out, CPacketSync.Sound B tail d) :
    List.Forall₂ (fun o d => ∀ m, getPacket chain d = some m → OwnBytes o.payload m) os out ↔
      ClassesFit chain os := by
  induction os generalizing out with
  | nil =>
    obtain rfl : out = [] := List.map_eq_nil_iff.1 hout
    exact ⟨fun _ => nofun, fun _ => .nil⟩
  | cons o os ih =>
    cases out with
    | nil => cases hout
    | cons d out =>
      obtain ⟨hd, hrest⟩ := List.cons.inj hout
      rw [List.forall₂_cons, ownBytes_delivered (hs d (by simp)) hd,
        ih hrest fun e he => hs e (by simp [he]), ClassesFit, ClassesFit, List.forall_mem_cons]

/-- **Handlers see their own packets only, exactly when no packet is shorter than the class bound to
its type.** -/
theorem handlersSeeOwn_iff (B : Build) (chain : List UvBind) (os : List (Outgoing B)) :
    HandlersSeeOwn B chain os ↔ ClassesFit chain os := by
  constructor
  · intro h
    obtain ⟨cs, hcs⟩ := exists_chunks B (wires os)
    obtain ⟨q, out, hf, hown⟩ := h zeroUninit cs hcs
    obtain ⟨q', out', hf', hout⟩ := CPacketSync.feed_wires zeroUninit os cs hcs
    rw [hf] at hf'
    cases hf'
    exact (forall₂_ownBytes hout (CPacketSync.feed_sound (CPacketSync.keeping_fresh _ _ _) hf)).1 hown
  · intro h u cs hcs
    obtain ⟨q, out, hf, hout⟩ := CPacketSync.feed_wires u os cs hcs
    exact ⟨q, out, hf,
      (forall₂_ownBytes hout (CPacketSync.feed_sound (CPacketSync.keeping_fresh _ _ _) hf)).2 h⟩

/-- A packet without payload, of type 5. -/
def emptyOutgoing : Outgoing zeroBuild where
  packet := ⟨1, serverPacketHead, serverPacketTail, .replicate 16 0, 5, 0, 0⟩
  data := none
  packchar := .replicate _ 0
  header_eq := rfl
  tail_eq := rfl
  datalen_eq := rfl
  datalen_le := by decide

/-- The handler of a class of one byte is given the zero behind the payload. -/
theorem emptyOutgoing_not_own : ¬ HandlersSeeOwn zeroBuild [⟨5, 1⟩] [emptyOutgoing] := by
  intro h
  obtain ⟨cs, hcs⟩ := exists_chunks zeroBuild (wires [emptyOutgoing])
  obtain ⟨q, out, hf, hown⟩ := h zeroUninit cs hcs
  obtain ⟨q', out', hf', hout⟩ := CPacketSync.feed_wires zeroUninit [emptyOutgoing] cs hcs
  rw [hf] at hf'
  cases hf'
  have hfit := (forall₂_ownBytes hout
    (CPacketSync.feed_sound (CPacketSync.keeping_fresh _ _ _) hf)).1 hown
  exact absurd (hfit emptyOutgoing (by simp) ⟨5, 1⟩ rfl) (by decide)

end CTCPHandle

end SimpleUv
