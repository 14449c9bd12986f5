import SimpleUv.NetBase.Codec

/-!
# The frame parser

`CPacketSync` and its `recvdata`. The loop of `recvdata` is cut where the source has its sections:
`topUp` (input into the read buffer), `searchHead` (the head byte and the header behind it),
`startFrame` (an accepted header), `fillBody` (data and tail byte), `rejectFrame` (back to the
byte behind the head), `acceptFrame` (the callback), and `turn` is one iteration. `none` is an
access outside its buffer.

Quantities of type `size_t` are natural numbers below the modulus of the build, expressions of that
type pass through `toSize`; `headpos` is an `int`. Addresses wrap like `size_t`, so `base + headpos`
is the offset `toSize headpos`.
-/

namespace SimpleUv

/-- `SERVER_PACKET_HEAD`. -/
def serverPacketHead : Byte := 0x01

/-- `SERVER_PACKET_TAIL`. -/
def serverPacketTail : Byte := 0x02

/-- The two states of the parser. -/
inductive ParseType
  | head
  | nothing
  deriving DecidableEq, Repr

/-- `CPacketSync`. -/
structure CPacketSync where
  packetCb : Bool
  parsetype : ParseType
  getdatalen : ℕ
  threadReaddata : UvBuf
  threadPacketdata : UvBuf
  truepacketlen : ℕ
  headpos : ℤ
  head : Byte
  tail : Byte
  theNexPacket : NetPacket
  md5str : Digest

/-- A call of the packet callback: the header, and the buffer its data pointer points into. -/
structure Delivery where
  packethead : NetPacket
  packetdata : List Byte
  deriving DecidableEq

/-- A packet: a header and the payload it announces. -/
structure Packet where
  packethead : NetPacket
  payload : List Byte
  deriving DecidableEq

/-- The packet a callback is given: `datalen` bytes from its data pointer. -/
def Delivery.packet (d : Delivery) : Packet :=
  ⟨d.packethead, d.packetdata.take d.packethead.datalen⟩

/-- What the constructor leaves as it finds it. -/
structure Uninit where
  readdata : List.Vector Byte bufferSize
  packetdata : List.Vector Byte bufferSize
  head : Byte
  tail : Byte
  theNexPacket : NetPacket
  md5str : Digest

/-- Memory that happens to be zero. -/
def zeroUninit : Uninit where
  readdata := .replicate bufferSize 0
  packetdata := .replicate bufferSize 0
  head := 0
  tail := 0
  theNexPacket := ⟨0, 0, 0, .replicate 16 0, 0, 0, 0⟩
  md5str := .replicate 16 0

namespace CPacketSync

/-- The constructor. -/
def construct (u : Uninit) : CPacketSync where
  packetCb := false
  parsetype := .nothing
  getdatalen := 0
  threadReaddata := ⟨u.readdata.toList⟩
  threadPacketdata := ⟨u.packetdata.toList⟩
  truepacketlen := 0
  headpos := -1
  head := u.head
  tail := u.tail
  theNexPacket := u.theNexPacket
  md5str := u.md5str

/-- `Start`. The two characters are stored as `unsigned char`. -/
def start (p : CPacketSync) (packhead packtail : Byte) : CPacketSync :=
  { p with head := packhead, tail := packtail }

/-- `SetPacketCB` with a callback. -/
def setPacketCb (p : CPacketSync) : CPacketSync := { p with packetCb := true }

/-- A parser as the program sets it up. -/
def fresh (u : Uninit) (packhead packtail : Byte) : CPacketSync :=
  (construct u).setPacketCb.start packhead packtail

variable (B : Build)

/-- `memmove(thread_readdata.base, thread_readdata.base + off, n)`. -/
def moveFront (p : CPacketSync) (off n : ℕ) : Option UvBuf := do
  let src ← load p.threadReaddata.base p.truepacketlen off n
  p.threadReaddata.store 0 src

/-- Fill the read buffer with unread input; returns the new input position. -/
def topUp (p : CPacketSync) (data : List Byte) (iret : ℕ) : Option (CPacketSync × ℕ) :=
  let unread := B.toSize (data.length - iret)
  let room := B.toSize (p.threadReaddata.len - p.truepacketlen)
  if unread ≤ room then do
    let src ← load data data.length iret unread
    let rd ← p.threadReaddata.store p.truepacketlen src
    some ({ p with threadReaddata := rd, truepacketlen := B.toSize (p.truepacketlen + unread) },
      data.length)
  else do
    let src ← load data data.length iret room
    let rd ← p.threadReaddata.store p.truepacketlen src
    some ({ p with threadReaddata := rd, truepacketlen := p.threadReaddata.len },
      B.toSize (iret + room))

/-- How the search for a frame ends: `continue`, or with an accepted header. -/
inductive Found
  | again (p : CPacketSync)
  | frame (p : CPacketSync)

/-- An accepted header: room for data and tail, and what the read buffer has of them. -/
def startFrame (p : CPacketSync) : Option CPacketSync := do
  let need := B.toSize (p.theNexPacket.datalen + 1)
  let pd := if p.threadPacketdata.len < need then p.threadPacketdata.realloc B need
    else p.threadPacketdata
  let got := B.toSize (min
    (toInt (B.toSize (p.truepacketlen - p.headpos - 1 - B.headLen))) (toInt need))
  let p := { p with parsetype := .head, threadPacketdata := pd, getdatalen := got }
  if 0 < got then
    let src ← load p.threadReaddata.base p.truepacketlen (B.toSize (p.headpos + 1 + B.headLen)) got
    let pd ← p.threadPacketdata.store 0 src
    some { p with threadPacketdata := pd }
  else some p

/-- The head byte at index `i` of the read buffer, and the header behind it. -/
def readHeader (p : CPacketSync) (i : ℕ) : Option Found := do
  let headpos := toInt i
  let p := { p with headpos := headpos }
  if B.toSize (p.truepacketlen - headpos - 1) < B.headLen then
    if headpos ≠ 0 then
      let n := B.toSize (p.truepacketlen - headpos)
      let rd ← p.moveFront (B.toSize headpos) n
      some (.again { p with threadReaddata := rd, truepacketlen := n })
    else some (.again p)
  else
    let chars ← load p.threadReaddata.base p.truepacketlen (B.toSize (toInt (headpos + 1))) 34
    let packet := charToNetPacket B chars
    let p := { p with theNexPacket := packet }
    if packet.header ≠ p.head ∨ packet.tail ≠ p.tail ∨ packet.datalen < 0 then
      let rd ← p.moveFront (B.toSize (headpos + 1)) (B.toSize (p.truepacketlen - headpos - 1))
      some (.again { p with
        threadReaddata := rd, truepacketlen := B.toSize (p.truepacketlen - toInt (headpos + 1)) })
    else
      let p ← p.startFrame B
      some (.frame p)

/-- Look for a head byte with `memchr`. -/
def searchHead (p : CPacketSync) : Option Found := do
  let window ← load p.threadReaddata.base p.truepacketlen 0 p.truepacketlen
  match window.findIdx? (· == p.head) with
  | none => some (.again { p with truepacketlen := 0 })
  | some i => p.readHeader B i

/-- Read data and tail byte from the input; returns the new input position when they are
complete, `none` where `recvdata` returns to wait for more. -/
def fillBody (p : CPacketSync) (data : List Byte) (iret : ℕ) :
    Option (CPacketSync × Option ℕ) :=
  let need := B.toSize (p.theNexPacket.datalen + 1)
  if p.getdatalen < need then
    let unread := B.toSize (data.length - iret)
    if B.toSize (p.getdatalen + unread) < need then do
      let src ← load data data.length iret unread
      let pd ← p.threadPacketdata.store p.getdatalen src
      some ({ p with
        threadPacketdata := pd, getdatalen := B.toSize (p.getdatalen + unread) }, none)
    else do
      let n := B.toSize (p.theNexPacket.datalen + 1 - p.getdatalen)
      let src ← load data data.length iret n
      let pd ← p.threadPacketdata.store p.getdatalen src
      some ({ p with threadPacketdata := pd, getdatalen := need }, some (B.toSize (iret + n)))
  else some (p, some iret)

/-- Whether data and tail byte of the frame are all in the read buffer. -/
def frameInReaddata (p : CPacketSync) : Prop :=
  B.toSize (p.theNexPacket.datalen + 1) ≤ B.toSize (p.truepacketlen - p.headpos - 1 - B.headLen)

instance (p : CPacketSync) : Decidable (p.frameInReaddata B) := by
  unfold frameInReaddata
  infer_instance

/-- A bad tail or checksum: the bytes behind the head byte become the read buffer again. -/
def rejectFrame (p : CPacketSync) : Option CPacketSync :=
  if p.frameInReaddata B then do
    let rd ← p.moveFront (B.toSize (p.headpos + 1)) (B.toSize (p.truepacketlen - p.headpos - 1))
    some { p with
      parsetype := .nothing
      threadReaddata := rd
      truepacketlen := B.toSize (p.truepacketlen - toInt (p.headpos + 1)) }
  else do
    let size := B.toSize (B.headLen + p.theNexPacket.datalen + 1)
    let need := B.toSize (p.theNexPacket.datalen + 1)
    let rd := if p.threadReaddata.len < size then p.threadReaddata.realloc B size
      else p.threadReaddata
    let rd ← { p with threadReaddata := rd }.moveFront (B.toSize (p.headpos + 1)) B.headLen
    let src ← load p.threadPacketdata.base p.getdatalen 0 need
    let rd ← rd.store B.headLen src
    some { p with
      parsetype := .nothing
      threadReaddata := rd
      truepacketlen := B.toSize (B.headLen + need) }

/-- A good frame: the bytes behind it stay in the read buffer, and the callback is called. -/
def acceptFrame (p : CPacketSync) : Option (CPacketSync × Option Delivery) := do
  let size := B.toSize (p.headpos + B.headLen + p.theNexPacket.datalen + 2)
  let left := B.toSize (p.truepacketlen - size)
  let rd ← if p.frameInReaddata B then p.moveFront size left else some p.threadReaddata
  let p := { p with
    threadReaddata := rd
    truepacketlen := if p.frameInReaddata B then left else 0 }
  if p.packetCb then
    let pd ← p.threadPacketdata.store p.theNexPacket.datalen [0]
    some ({ p with parsetype := .nothing, threadPacketdata := pd },
      some ⟨p.theNexPacket, pd.base⟩)
  else some ({ p with parsetype := .nothing }, none)

/-- The checks of a complete frame: the tail byte, then the checksum. -/
def checkFrame (p : CPacketSync) : Option (CPacketSync × Option Delivery) := do
  let datalen := p.theNexPacket.datalen
  let last ← load p.threadPacketdata.base p.getdatalen datalen 1
  if last.map charToInt ≠ [(p.tail.toNat : ℤ)] then
    let p ← p.rejectFrame B
    some (p, none)
  else
    let bytes ← load p.threadPacketdata.base p.getdatalen 0 datalen
    let md5str := if datalen = 0 then .replicate 16 0 else B.md5 bytes
    let p := { p with md5str := md5str }
    if p.theNexPacket.check ≠ md5str then
      let p ← p.rejectFrame B
      some (p, none)
    else p.acceptFrame B

/-- What an iteration of the loop does: go on with the loop, or return. -/
inductive Turn
  | next (p : CPacketSync) (iret : ℕ) (out : Option Delivery)
  | ret (p : CPacketSync)

/-- The rest of an iteration, once a header is accepted. -/
def turnBody (p : CPacketSync) (data : List Byte) (iret : ℕ) : Option Turn := do
  match ← p.fillBody B data iret with
  | (p, none) => some (.ret p)
  | (p, some iret) =>
    let (p, out) ← p.checkFrame B
    some (.next p iret out)

/-- The rest of an iteration, once the search ends. -/
def afterSearch (data : List Byte) (iret : ℕ) : Found → Option Turn
  | .again p => some (.next p iret none)
  | .frame p => p.turnBody B data iret

/-- One iteration of the loop. -/
def turn (p : CPacketSync) (data : List Byte) (iret : ℕ) : Option Turn :=
  match p.parsetype with
  | .head => p.turnBody B data iret
  | .nothing => do
    let (p, iret) ← p.topUp B data iret
    let found ← p.searchHead B
    afterSearch B data iret found

/-- The loop condition. -/
def Goes (p : CPacketSync) (data : List Byte) (iret : ℕ) : Prop :=
  iret < data.length ∨ B.headLen + 2 ≤ p.truepacketlen

instance (p : CPacketSync) (data : List Byte) (iret : ℕ) : Decidable (p.Goes B data iret) := by
  unfold Goes
  infer_instance

/-- The result of a call. -/
inductive Outcome
  | done (p : CPacketSync) (out : List Delivery)
  | fault
  | outOfFuel

/-- Put deliveries in front of later ones. -/
def Outcome.emit (out₀ : List Delivery) : Outcome → Outcome
  | .done p out => .done p (out₀ ++ out)
  | .fault => .fault
  | .outOfFuel => .outOfFuel

/-- The loop of `recvdata`, for at most `k` iterations. -/
def recvLoop (data : List Byte) : ℕ → CPacketSync → ℕ → Outcome
  | 0, _, _ => .outOfFuel
  | k + 1, p, iret =>
    if p.Goes B data iret then
      match p.turn B data iret with
      | none => .fault
      | some (.ret p) => .done p []
      | some (.next p iret out) => (recvLoop data k p iret).emit out.toList
    else .done p []

/-- `recvdata`. The bound on the number of iterations is one that no call needs in which the loop
makes progress, see `recvLoop_spec`. -/
def recvdata (p : CPacketSync) (data : List Byte) : Outcome :=
  p.recvLoop B data (p.truepacketlen + p.getdatalen + B.headLen + 2 * data.length + 2) 0

end CPacketSync

end SimpleUv
