import SimpleUv.Foundations.LengthPrefix
import SimpleUv.Foundations.Transition
import SimpleUv.NetBase.Codec

/-!
# Length-prefixed messages

`UVMsgFraming.cpp`: `uv_msg_send` puts a 32-bit length in front of a message, and the reader takes the
messages out of the stream again. libuv asks `uv_stream_msg_alloc` for a region, puts into it what it
has received, and calls `uv_stream_msg_read`; or it calls that with an error, in particular when no
region was offered. Pointers into the buffer are offsets from `uvmsg->buf`; `none` is an access
outside the buffer.

The loop of `uv_stream_msg_read` is cut into its iterations (`ReadLoop.turn`), since it need not end.
`MsgSession.step` is a callback of libuv. Besides the reader the state records the calls of
`msg_read_cb`, and the bytes received since the last error. What `free_cb` does with a released buffer
is left out.
-/

namespace SimpleUv

open Foundations

/-- `uv_msg_send`: the bytes given to `uv_write`. It returns `UV_EINVAL` when there is nothing to
send. -/
def uvMsgSend (B : Build) (msg : Option (List Byte)) (size : ℤ) : Option (List Byte) := do
  let msg ← msg
  if size ≤ 0 then none
  else
    let msgSize := htonl B.order (.ofInt 32 size)
    some (image B.order 4 msgSize.toNat ++ msg.take size.toNat)

/-- `alloc_cb`: the answer to its `i`-th call, with the size that is suggested. -/
abbrev AllocCb := ℕ → ℕ → Option UvBuf

/-- The size that libuv suggests, and `uv_stream_msg_alloc` for a length. -/
def suggestedSize : ℕ := 64 * 1024

/-- `uv_msg_t`. `allocs` counts the calls of `alloc_cb`. -/
structure UvMsg where
  buf : Option UvBuf
  allocSize : ℤ
  filled : ℤ
  allocs : ℕ
  deriving DecidableEq

/-- The region that `uv_stream_msg_alloc` offers. -/
structure StreamBuf where
  base : ℤ
  len : ℕ
  deriving DecidableEq

/-- A call of `msg_read_cb`. -/
inductive ReadCb
  | message (bytes : List Byte)
  | error (nread : ℤ)
  deriving DecidableEq

/-- `ntohl(*(int*)ptr)`, as an `int`. -/
def msgSizeAt (B : Build) (b : UvBuf) (ptr : ℤ) : Option ℤ :=
  if 0 ≤ ptr then
    (load b.base b.len ptr.toNat 4).map fun bs =>
      toInt (htonl B.order (.ofNat 32 (word B.order bs))).toNat
  else none

namespace UvMsg

variable (B : Build) (cb : AllocCb) (s : UvMsg)

/-- `uv_msg_init`. -/
def init : UvMsg := ⟨none, 0, 0, 0⟩

/-- `uv_stream_msg_free_buffer`. -/
def freeBuffer : UvMsg := { s with buf := none, allocSize := 0 }

/-- The bytes that `memcpy` reads in `uv_stream_msg_realloc`. -/
def filledBytes : Option (List Byte) :=
  let b := s.buf.getD ⟨[]⟩
  load b.base b.len 0 (B.toSize s.filled)

/-- `uv_stream_msg_realloc`, and whether it succeeds. -/
def realloc (suggested : ℕ) : Option (UvMsg × Bool) :=
  let t := { s with allocs := s.allocs + 1 }
  match cb s.allocs suggested with
  | none => some (t, false)
  | some buf =>
    if buf.len < suggested then some (t, false)
    else do
      let bytes ← s.filledBytes B
      let buf ← buf.store 0 bytes
      some ({ t with buf := some buf, allocSize := toInt buf.len }, true)

/-- The first allocation of `uv_stream_msg_alloc`, when there is no buffer. -/
def firstAlloc : UvMsg :=
  match s.buf with
  | some _ => s
  | none =>
    let t := { s with allocs := s.allocs + 1 }
    match cb s.allocs suggestedSize with
    | none => t
    | some buf => { t with buf := some buf, allocSize := toInt buf.len }

/-- The rest of `uv_stream_msg_alloc`. -/
def offer (b : UvBuf) : Option (UvMsg × Option StreamBuf) := do
  if 4 ≤ s.filled then
    let msgSize ← msgSizeAt B b 0
    let entire := toInt (msgSize + 4)
    let (t, ok) ← if s.allocSize < entire then s.realloc B cb (B.toSize entire) else some (s, true)
    some (t, if ok then some ⟨t.filled, B.toSize (toInt (entire - t.filled))⟩ else none)
  else
    let (t, ok) ← if s.allocSize < 4 then s.realloc B cb suggestedSize else some (s, true)
    some (t, if ok then some ⟨t.filled, B.toSize (toInt (t.allocSize - t.filled))⟩ else none)

/-- `uv_stream_msg_alloc`: the region offered, if any. -/
def alloc : Option (UvMsg × Option StreamBuf) :=
  let s := s.firstAlloc cb
  match s.buf with
  | none => some (s, none)
  | some b => s.offer B cb b

end UvMsg

/-- The variables of the loop in `uv_stream_msg_read`. -/
structure ReadLoop where
  ptr : ℤ
  filled : ℤ
  deriving DecidableEq

/-- What an iteration of the loop does: it calls `msg_read_cb` and goes on, or it leaves the loop. -/
inductive ReadTurn
  | call (msg size : ℤ) (next : ReadLoop)
  | stop
  deriving DecidableEq

/-- One iteration of the loop. -/
def ReadLoop.turn (B : Build) (b : UvBuf) (l : ReadLoop) : Option ReadTurn :=
  if 4 ≤ l.filled then do
    let msgSize ← msgSizeAt B b l.ptr
    let entire := toInt (msgSize + 4)
    if entire ≤ l.filled then
      let ptr := if entire < l.filled then l.ptr + entire else l.ptr
      some (.call (l.ptr + 4) msgSize ⟨ptr, toInt (l.filled - entire)⟩)
    else some .stop
  else some .stop

/-- How the loop ends, with the arguments of the calls of `msg_read_cb`. -/
inductive LoopResult
  | done (l : ReadLoop) (calls : List (ℤ × ℤ))
  | fault
  | outOfFuel
  deriving DecidableEq

/-- The loop, for at most `k` iterations. -/
def readLoop (B : Build) (b : UvBuf) : ℕ → ReadLoop → LoopResult
  | 0, _ => .outOfFuel
  | k + 1, l =>
    match l.turn B b with
    | none => .fault
    | some .stop => .done l []
    | some (.call msg size next) =>
      match readLoop B b k next with
      | .done l calls => .done l ((msg, size) :: calls)
      | r => r

/-- The message that `msg_read_cb` finds. -/
def UvBuf.message (b : UvBuf) (call : ℤ × ℤ) : ReadCb :=
  .message (slice b.base call.1.toNat call.2.toNat)

namespace UvMsg

variable (B : Build) (s : UvMsg)

/-- The rest of `uv_stream_msg_read`, behind the loop: the bytes left are moved to the front, or the
buffer is released. -/
def afterLoop (b : UvBuf) (l : ReadLoop) : Option UvMsg :=
  let t := { s with filled := l.filled }
  if 0 < l.ptr ∧ 0 < l.filled then do
    let bytes ← load b.base b.len l.ptr.toNat l.filled.toNat
    let buf ← b.store 0 bytes
    some { t with buf := some buf }
  else if l.filled = 0 then some t.freeBuffer
  else some t

/-- The result of `uv_stream_msg_read`. -/
inductive ReadResult
  | done (s : UvMsg) (calls : List ReadCb)
  | fault
  | outOfFuel

/-- `uv_stream_msg_read`. The bound on the number of iterations is one that no call needs in which the
loop takes bytes out of the buffer, see `readLoop_spec`. -/
def read (nread : ℤ) : ReadResult :=
  if nread = 0 then .done s []
  else if nread < 0 then .done s.freeBuffer [.error nread]
  else
    let t := { s with filled := toInt (s.filled + nread) }
    let b := t.buf.getD ⟨[]⟩
    match readLoop B b (t.filled.toNat + 1) ⟨0, t.filled⟩ with
    | .fault => .fault
    | .outOfFuel => .outOfFuel
    | .done l calls =>
      match t.afterLoop b l with
      | none => .fault
      | some u => .done u (calls.map b.message)

/-- libuv puts the bytes it has received into the region it was offered. -/
def receive (o : StreamBuf) (data : List Byte) : Option UvMsg := do
  let b ← s.buf
  if 0 ≤ o.base then
    let b ← b.store o.base.toNat data
    some { s with buf := some b }
  else none

end UvMsg

/-! ## The callbacks of libuv -/

/-- Where libuv is between its callbacks: it has not asked for a region, it was offered one, or it was
refused. -/
inductive ReadPhase
  | idle
  | offered (o : StreamBuf)
  | refused
  deriving DecidableEq

/-- The reader on a stream. -/
structure MsgSession where
  msg : UvMsg
  phase : ReadPhase
  calls : List ReadCb
  current : List Byte
  crashed : Bool

namespace MsgSession

variable (B : Build) (cb : AllocCb) (s : MsgSession)

/-- The stream when reading starts. -/
def start : MsgSession := ⟨.init, .idle, [], [], false⟩

/-- libuv asks for a region, it has received data or nothing, or it reports an error. -/
inductive Event
  | alloc
  | read (data : List Byte)
  | error (nread : ℤ)
  deriving DecidableEq

/-- The bytes an event brings. -/
def Event.data : Event → List Byte
  | .read data => data
  | _ => []

/-- The reader after `uv_stream_msg_alloc`. An empty region is none. -/
def afterAlloc : MsgSession :=
  match s.msg.alloc B cb with
  | none => { s with crashed := true }
  | some (msg, none) => { s with msg := msg, phase := .refused }
  | some (msg, some o) =>
    { s with msg := msg, phase := if o.len = 0 then .refused else .offered o }

/-- The reader after `uv_stream_msg_read`. -/
def afterRead : UvMsg.ReadResult → MsgSession
  | .done msg calls => { s with msg := msg, phase := .idle, calls := s.calls ++ calls }
  | .fault | .outOfFuel => { s with crashed := true }

/-- What an event does. -/
def callback : Event → Option MsgSession
  | .alloc => if s.phase = .idle then some (s.afterAlloc B cb) else none
  | .read data =>
    match s.phase with
    | .offered o =>
      if data.length ≤ o.len then
        match s.msg.receive o data with
        | none => some { s with crashed := true }
        | some msg =>
          some ({ s with current := s.current ++ data }.afterRead (msg.read B data.length))
      else none
    | _ => none
  | .error nread =>
    if nread < 0 then some ({ s with current := [] }.afterRead (s.msg.read B nread)) else none

/-- The next event, unless the reader has crashed. -/
def step (e : Event) : Option MsgSession := if s.crashed then none else s.callback B cb e

end MsgSession

end SimpleUv
