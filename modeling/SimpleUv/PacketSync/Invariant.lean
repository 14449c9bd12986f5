import SimpleUv.PacketSync.Reference

/-!
# The invariant of the frame parser

`pending` is the part of the stream the parser still holds: the valid bytes of the read buffer
while it looks for a header, and afterwards the header together with the data read so far. `Inv`
is what holds at every loop head: the buffers are at least `bufferSize` and at most `cap` long, and
a parser inside a frame has an accepted header at `offset` and less than data and tail
(`Waiting`). `Complete` is the state between reading and checking a frame; `stream` is then what
the parser holds.
-/

namespace SimpleUv

open Foundations

namespace CPacketSync

section Defs

variable (B : Build)

/-- The index of the head byte in the read buffer. -/
def offset (p : CPacketSync) : ℕ := p.headpos.toNat

/-- The bytes the read buffer has behind the header. -/
def avail (p : CPacketSync) : ℕ := p.truepacketlen - p.offset - 1 - B.headLen

/-- The head byte and the header. -/
def headerBytes (p : CPacketSync) : List Byte :=
  slice p.threadReaddata.base p.offset (1 + B.headLen)

/-- The bytes received and neither dropped nor delivered. -/
def pending (p : CPacketSync) : List Byte :=
  match p.parsetype with
  | .nothing => p.threadReaddata.base.take p.truepacketlen
  | .head => p.headerBytes B ++ p.threadPacketdata.base.take p.getdatalen

/-- The bytes held when a frame is complete: all of the read buffer from the head byte on, when
the frame is in it, and else the frame. -/
def stream (p : CPacketSync) : List Byte :=
  if p.theNexPacket.datalen + 1 ≤ p.avail B then
    slice p.threadReaddata.base p.offset (p.truepacketlen - p.offset)
  else p.headerBytes B ++ p.threadPacketdata.base.take p.getdatalen

/-- The longest read buffer that a frame of at most `2 ^ 31 - 2` bytes of data makes. -/
def maxCap : ℕ := 2 ^ 31 - 1 + B.headLen

variable (head tail : Byte)

/-- The delimiters, the callback and the read buffer. -/
structure Buffers (cap : ℕ) (p : CPacketSync) : Prop where
  cb : p.packetCb = true
  head_eq : p.head = head
  tail_eq : p.tail = tail
  size_le : bufferSize ≤ p.threadReaddata.len
  len_le : p.threadReaddata.len ≤ cap
  true_le : p.truepacketlen ≤ p.threadReaddata.len

/-- A header is accepted, and the packet buffer has room for data and tail. -/
structure InFrame (p : CPacketSync) : Prop where
  headpos_nonneg : 0 ≤ p.headpos
  room : p.offset + 1 + B.headLen ≤ p.truepacketlen
  header : candidate B head tail (p.headerBytes B) = some p.theNexPacket
  datalen_le : p.theNexPacket.datalen ≤ 2 ^ 31 - 2
  packet_le : p.theNexPacket.datalen + 1 ≤ p.threadPacketdata.len

/-- Data or tail are missing, and what the read buffer has of them is copied. -/
structure Waiting (p : CPacketSync) : Prop extends InFrame B head tail p where
  avail_le : p.avail B ≤ p.getdatalen
  got_le : p.getdatalen ≤ p.theNexPacket.datalen

/-- Data and tail are complete in the packet buffer. -/
structure Complete (p : CPacketSync) : Prop extends InFrame B head tail p where
  got_eq : p.getdatalen = p.theNexPacket.datalen + 1
  whole : p.theNexPacket.datalen + 1 ≤ p.avail B →
    p.threadPacketdata.base.take (p.theNexPacket.datalen + 1) =
      slice p.threadReaddata.base (p.offset + 1 + B.headLen) (p.theNexPacket.datalen + 1)

/-- **The invariant of the loop head.** -/
structure Inv (cap : ℕ) (p : CPacketSync) : Prop extends Buffers head tail cap p where
  waiting : p.parsetype = .head → Waiting B head tail p

end Defs

variable {B : Build} {head tail : Byte} {cap : ℕ} {p : CPacketSync}

theorem Inv.of_nothing (h : Buffers head tail cap p) (hp : p.parsetype = .nothing) :
    Inv B head tail cap p := { h with waiting := fun h' => by simp [hp] at h' }

/-- Sizes of buffers and streams stay below the modulus. -/
theorem maxCap_lt (B : Build) : maxCap B + 2 ^ 30 < B.sizeT.modulus := by
  have h₁ := headLen_le B
  have h₂ := two_pow_le_modulus B.sizeT
  unfold maxCap
  omega

/-- While the parser looks for a header it holds the valid bytes of the read buffer. -/
theorem Buffers.length_pending (h : Buffers head tail cap p) (hp : p.parsetype = .nothing) :
    (p.pending B).length = p.truepacketlen := by
  have := h.true_le
  unfold UvBuf.len at this
  simp only [pending, hp, List.length_take]
  omega

end CPacketSync

end SimpleUv
