import SimpleUv.TcpClient.Sequence

/-!
# From a client to a server

One thread calls `SendUvMessage` on a client that stays connected, and the bytes that `uv_write`
accepted arrive in order, in any segments, at a server connection with a fresh parser. What the server
has passed to `ParsePacket` is then always a first part of what was sent, and everything when all calls
have returned and all bytes have arrived (`delivers`).

The layers in between each cut the stream: the passes of `Send`, the ring buffer, the blocks of
`send_inl`, the segments of TCP and the parser. The accepted bytes are the frames, one behind the other,
and every later layer holds a first part of what the layer before holds.
-/

namespace SimpleUv

open Foundations

/-- A call of `SendUvMessage`: the object with its bytes, its type, and what is in the uninitialised
memory of the packet and of its header. The frame is shorter than `2 ^ 31` bytes. -/
structure Message (B : Build) where
  msg : List Byte
  nMsgType : ℕ
  tmppack : NetPacket
  packchar : List.Vector Byte B.headLen
  short : B.headLen + msg.length + 2 < 2 ^ 31

namespace Message

variable {B : Build} (m : Message B)

/-- The packet that `CTCPHandle::PacketData` fills in. -/
def packet : NetPacket :=
  { m.tmppack with
    type := m.nMsgType, header := serverPacketHead, tail := serverPacketTail, datalen := m.msg.length }

/-- `CTCPHandle::PacketData`. -/
def packetData : List Byte := ((packetData2 B m.packet (some m.msg) m.packchar).map Prod.snd).getD []

theorem packetData_eq_handle : m.packetData =
    CTCPHandle.packetData B ⟨m.tmppack, m.packchar⟩ m.msg m.nMsgType := rfl

/-- The packet as it is framed. -/
def outgoing : Outgoing B where
  packet := m.packet
  data := some m.msg
  packchar := m.packchar
  header_eq := rfl
  tail_eq := rfl
  datalen_eq := rfl
  datalen_le := by
    have hshort := m.short
    have hhead := headLen_ge B
    show m.msg.length ≤ 2 ^ 31 - 2
    omega

theorem packetData_eq : m.packetData = m.outgoing.wire := rfl

theorem length_packetData : m.packetData.length = B.headLen + m.msg.length + 2 := by
  rw [packetData_eq, Outgoing.wire_eq, List.length_cons, Outgoing.length_tailBytes]
  rfl

/-- The object stands behind the head byte and the header. -/
theorem getElem?_packetData {i : ℕ} (hi : i < m.msg.length) :
    m.packetData[B.headLen + i + 1]? = m.msg[i]? := by
  have hheader := m.outgoing.length_header
  rw [packetData_eq, Outgoing.wire_eq, List.getElem?_cons_succ, Outgoing.tailBytes,
    List.getElem?_append_left (by rw [List.length_append, hheader]; exact Nat.add_lt_add_left hi _),
    List.getElem?_append_right (by omega), hheader, Nat.add_sub_cancel_left]
  rfl

/-- What `Send` is given. -/
def frame : Chunk B where
  bytes := m.packetData
  size := by
    have hshort := m.short
    have hmodulus := two_pow_le_modulus B.sizeT
    rw [length_packetData]
    omega

theorem frame_ne : m.frame.bytes ≠ [] := by
  refine List.ne_nil_of_length_pos ?_
  show 0 < m.packetData.length
  rw [length_packetData]
  omega

end Message

/-- The client, what was sent, and the server connection: the bytes it has received, its parser, and
what it has passed to `ParsePacket`. -/
structure Link (B : Build) where
  client : CTCPClient B
  sent : List (Message B)
  delivered : List Byte
  packet : CPacketSync
  parsed : List Packet
  crashed : Bool

namespace Link

variable {B : Build}

/-- A client that has issued its request to connect, and a fresh parser. -/
def start (B : Build) (memory : List.Vector Byte bufferSize) (u v : Uninit) : Link B where
  client := .start B memory u
  sent := []
  delivered := []
  packet := .fresh v serverPacketHead serverPacketTail
  parsed := []
  crashed := false

/-- The thread calls `SendUvMessage` or takes its next step in `Send`, the client is connected, its loop
thread goes on, data arrives at the client, or a segment arrives at the server. All writes succeed. -/
inductive Event (B : Build)
  | sendUvMessage (m : Message B)
  | send
  | connected (readStart : ℤ)
  | async
  | drain
  | uvWrite
  | afterSend (i : ℕ) (status : ℤ)
  | recv (c : Chunk B)
  | deliver (c : Chunk B)

/-- An event of the client. -/
def clientStep (s : Link B) (e : CTCPClient.Event B) : Option (Link B) :=
  (s.client.step e).map fun client => { s with client := client }

/-- `AfterRecv` of the server connection, on the next segment of the written stream. -/
def deliver (s : Link B) (c : Chunk B) : Option (Link B) :=
  if s.crashed = false ∧ s.delivered ++ c.bytes <+: s.client.out.written then
    match s.packet.recvdata B c.bytes with
    | .done p ds =>
      some { s with
        delivered := s.delivered ++ c.bytes
        packet := p
        parsed := s.parsed ++ ds.map Delivery.packet }
    | _ => some { s with delivered := s.delivered ++ c.bytes, crashed := true }
  else none

/-- What an event does. -/
def step (s : Link B) : Event B → Option (Link B)
  | .sendUvMessage m => clientStep { s with sent := s.sent ++ [m] } (.call 0 m.frame)
  | .send => s.clientStep (.send 0)
  | .connected readStart => s.clientStep (.connected 0 readStart)
  | .async => s.clientStep .async
  | .drain => s.clientStep .drain
  | .uvWrite => s.clientStep (.uvWrite 0)
  | .afterSend i status => s.clientStep (.afterSend i status)
  | .recv c => s.clientStep (.recv c)
  | .deliver c => s.deliver c

/-- The server has passed a first part of the messages to `ParsePacket`, with the types modulo `2 ^ 32`,
and all of them when all calls have returned and all accepted bytes have arrived. -/
structure Delivers (s : Link B) : Prop where
  running : s.crashed = false
  parsed_prefix : (s.parsed.map fun p => (p.packethead.type, p.payload)) <+:
    s.sent.map fun m => (m.nMsgType % 2 ^ 32, m.msg)
  complete : (∀ t, s.client.out.senders t = none) → s.delivered = s.client.out.acceptedBytes →
    (s.parsed.map fun p => (p.packethead.type, p.payload)) =
      s.sent.map fun m => (m.nMsgType % 2 ^ 32, m.msg)

end Link

namespace Link

variable {B : Build} {s t : Link B}

/-- The frames of the messages. -/
def frames (sent : List (Message B)) : List (List Byte) := sent.map Message.packetData

theorem flatten_frames (sent : List (Message B)) :
    (frames sent).flatten = wires (sent.map Message.outgoing) := by
  rw [frames, wires, List.flatMap_map, List.flatMap_def]
  rfl

/-- **The simulation invariant**: the accepted bytes are the frames, the delivered ones are a first part
of them, and the parser tracks these. -/
structure Inv (s : Link B) : Prop where
  full : s.client.Full
  flag : s.client.isUserAskForClosed = false
  sequential : s.client.out.pipe.Sequential false 0 (frames s.sent)
  delivered_prefix : s.delivered <+: s.client.out.written
  tracks : Tracks B s.packet s.delivered s.parsed
  running : s.crashed = false

theorem inv_start (memory : List.Vector Byte bufferSize) (u v : Uninit) :
    (start B memory u v).Inv where
  full := CTCPClient.full_start memory u
  flag := rfl
  sequential := .idle rfl rfl
  delivered_prefix := List.prefix_rfl
  tracks := .fresh B v
  running := rfl

theorem Inv.delivered_frames (h : s.Inv) {zs : List Byte} (hz : zs <+: s.client.out.written) :
    zs <+: wires (s.sent.map Message.outgoing) := by
  rw [← flatten_frames]
  exact (hz.trans (Outbound.NoGap.written_prefix h.full.noGap)).trans h.sequential.prefix_flatten

theorem Inv.toDelivers (h : s.Inv) : s.Delivers := by
  have hrun := run_wires (s.sent.map Message.outgoing) []
  rw [List.append_nil] at hrun
  have hmap : (s.sent.map Message.outgoing).map Outgoing.delivered =
      ((reference B serverPacketHead serverPacketTail).run (wires (s.sent.map Message.outgoing))).1 :=
    (congrArg Prod.fst (Decoder.run_eq_of_steps hrun rfl)).symm
  have hlist : ((s.sent.map Message.outgoing).map Outgoing.delivered).map
      (fun p => (p.packethead.type, p.payload)) = s.sent.map fun m => (m.nMsgType % 2 ^ 32, m.msg) := by
    rw [List.map_map, List.map_map]
    rfl
  refine ⟨h.running, ?_, fun hidle hall => ?_⟩
  · rw [← hlist, hmap, h.tracks.out_eq]
    obtain ⟨zs, hz⟩ := h.delivered_frames h.delivered_prefix
    rw [← hz]
    exact (Decoder.run_fst_prefix _ _).map _
  · have hframes : s.delivered = wires (s.sent.map Message.outgoing) := by
      rw [hall, ← flatten_frames]
      exact h.sequential.flatten_of_idle rfl (hidle 0)
    rw [← hlist, hmap, h.tracks.out_eq, hframes]

/-- The steps of the client. -/
theorem Inv.client {e : CTCPClient.Event B} (h : s.Inv) (hclose : e ≠ .userClose)
    (hres : ∀ res, e = .uvWrite res → res = 0) {sent : List (Message B)}
    (hsequential : ∀ q, s.client.out.pipe.step false s.client.tcphandle.socket e = some q →
      q.Sequential false 0 (frames sent))
    (hstep : clientStep { s with sent := sent } e = some t) : t.Inv := by
  obtain ⟨c, hc, rfl⟩ := Option.map_eq_some_iff.1 hstep
  have hpipe := CTCPClient.step_pipe hc h.full.sound.inv
  rw [show CTCPClient.isUserAskForClosed _ = false from h.flag] at hpipe
  exact ⟨h.full.step hres hc, CTCPClient.flag_of_step h.flag hclose hc, hsequential _ hpipe,
    h.delivered_prefix.trans (Pipe.written_prefix (Pipe.effect_of_step hpipe)), h.tracks, h.running⟩

/-- The steps of the client besides the calls. -/
theorem Inv.other {e : CTCPClient.Event B} (h : s.Inv) (hclose : e ≠ .userClose)
    (hres : ∀ res, e = .uvWrite res → res = 0) (hcall : ∀ t data, e ≠ .call t data)
    (hsend : ∀ t, e = .send t → t = 0) (hstep : s.clientStep e = some t) : t.Inv :=
  h.client hclose hres (fun _ hq => h.sequential.effect hcall hsend h.full.sound.inv.iret_le
    (Pipe.effect_of_step hq)) hstep

/-- A segment arrives. -/
theorem Inv.deliver (h : s.Inv) {c : Chunk B} (hstep : s.deliver c = some t) : t.Inv := by
  unfold Link.deliver at hstep
  split_ifs at hstep with hc
  have hrange : InRange B (s.delivered ++ c.bytes) := by
    obtain ⟨zs, hz⟩ := h.delivered_frames hc.2
    exact InRange.of_append (by rw [hz]; exact inRange_wires _)
  obtain ⟨p, ds, hcall, htracks⟩ := h.tracks.recv c hrange
  rw [hcall] at hstep
  cases hstep
  exact ⟨h.full, h.flag, h.sequential, hc.2, htracks, h.running⟩

theorem Inv.step {e : Event B} (h : s.Inv) (hstep : s.step e = some t) : t.Inv := by
  cases e with
  | sendUvMessage m =>
    refine h.client (e := .call 0 m.frame) nofun nofun (fun q hq => ?_) hstep
    rw [frames, List.map_append]
    exact h.sequential.call m.frame_ne hq
  | send => exact h.other (e := .send 0) nofun nofun nofun (fun _ he => by cases he; rfl) hstep
  | uvWrite => exact h.other (e := .uvWrite 0) nofun (fun _ he => by cases he; rfl) nofun nofun hstep
  | connected readStart => exact h.other (e := .connected 0 readStart) nofun nofun nofun nofun hstep
  | async => exact h.other (e := .async) nofun nofun nofun nofun hstep
  | drain => exact h.other (e := .drain) nofun nofun nofun nofun hstep
  | afterSend i status => exact h.other (e := .afterSend i status) nofun nofun nofun nofun hstep
  | recv c => exact h.other (e := .recv c) nofun nofun nofun nofun hstep
  | deliver c => exact h.deliver hstep

/-- **End-to-end delivery**: in every run the server has passed a first part of the messages to
`ParsePacket`, and all of them when all calls have returned and all accepted bytes have arrived. -/
theorem delivers (memory : List.Vector Byte bufferSize) (u v : Uninit) (es : List (Event B)) :
    Always step Delivers (start B memory u v) es :=
  (always_of_step (fun _ _ _ h hstep => Inv.step h hstep) (inv_start memory u v) es).mono
    fun _ h => h.toDelivers

end Link

end SimpleUv
