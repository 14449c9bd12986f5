import SimpleUv.PacketSync.Session
import Mathlib.Logic.Function.Basic

/-!
# The server

`CTCPServer` between `Start` and the end of its loop thread, as a state that the callbacks of libuv
act on (`step`). Contexts and accept clients live on heaps, a freed object is `none`, and a step is
`none` when the event cannot happen or the server stops there: a failed assertion of libuv, an access
to a freed object, a wait for a mutex that its own thread holds. A handle passes through the stages
of `TcpHandle`. Connections are numbered as `uv_accept` succeeds; for each of them the state records
the chunks that arrived and the packets `ParsePacket` was given. When the parser faults on a chunk,
that chunk is recorded and the server has `crashed`.

Results of libuv are part of the event. The handle queue of the loop is not modelled: `uv_walk`
visits the listening handle and every context whose handle is initialised and not closed.
-/

namespace SimpleUv

/-- The callback given to `uv_close`: `AcceptClient::AfterClientClose`, `RecycleTcpHandle` or
`AfterServerClose`. -/
inductive CloseCb
  | client
  | recycle
  | server
  deriving DecidableEq, Repr

/-- A `uv_tcp_t`: not in the loop, initialised, reading from an accepted connection, or with its
close callback to come. -/
inductive TcpHandle
  | closed
  | init
  | reading (conn : ℕ)
  | closing (cb : CloseCb)
  deriving DecidableEq, Repr

/-- What the data pointer of a context's handle points to: the context, or an accept client. -/
inductive HandleData
  | ctx
  | acceptClient (c : ℕ)
  deriving DecidableEq, Repr

/-- `TcpClientCtx`. -/
structure TcpClientCtx where
  tcphandle : TcpHandle
  data : HandleData
  packet : CPacketSync
  clientid : Option ℤ
  parentAcceptclient : Option ℕ

/-- `AcceptClient`, whose close callback is `SubClientClosed`. -/
structure AcceptClient where
  clientHandle : ℕ
  clientId : ℤ
  isClosed : Bool

/-- The server. `clientIds` is the counter of `GetAvailaClientID`. -/
structure CTCPServer (B : Build) where
  ctxs : ℕ → Option TcpClientCtx
  ctxEnd : ℕ
  clients : ℕ → Option AcceptClient
  clientEnd : ℕ
  listAvaiTcpHandle : List ℕ
  mapClientsList : List (ℤ × ℕ)
  clientIds : ℤ
  mutexClients : Bool
  isClosed : Bool
  isUserAskForClosed : Bool
  listening : Bool
  connections : ℕ → Connection B
  connectionEnd : ℕ
  crashed : Bool

/-- `uv_close`, which asserts that the handle is neither closing nor closed. -/
def TcpClientCtx.uvClose (ctx : TcpClientCtx) (cb : CloseCb) : Option TcpClientCtx :=
  match ctx.tcphandle with
  | .init | .reading _ => some { ctx with tcphandle := .closing cb }
  | .closed | .closing _ => none

/-- `CloseWalkCB`. -/
def TcpClientCtx.closeWalk (ctx : TcpClientCtx) : TcpClientCtx := (ctx.uvClose .server).getD ctx

/-- The results of the calls in `AcceptConnection`, and its status. -/
structure AcceptResults where
  status : ℤ
  tcpInit : ℤ
  accept : ℤ
  readStart : ℤ

/-- All calls succeed. -/
def AcceptResults.ok : AcceptResults := ⟨0, 0, 0, 0⟩

namespace CTCPServer

variable {B : Build} (s : CTCPServer B)

/-- The server when `Start` returns. -/
def start (B : Build) : CTCPServer B where
  ctxs _ := none
  ctxEnd := 0
  clients _ := none
  clientEnd := 0
  listAvaiTcpHandle := []
  mapClientsList := []
  clientIds := 0
  mutexClients := false
  isClosed := false
  isUserAskForClosed := false
  listening := true
  connections _ := ⟨[], []⟩
  connectionEnd := 0
  crashed := false

/-- Write to a context. -/
def setCtx (a : ℕ) (ctx : TcpClientCtx) : CTCPServer B :=
  { s with ctxs := Function.update s.ctxs a (some ctx) }

/-- Take the context at the front of the list, or `AllocTcpClientCtx` when the list is empty. -/
def takeCtx (u : Uninit) : Option (CTCPServer B × ℕ × TcpClientCtx) :=
  match s.listAvaiTcpHandle with
  | [] => some ({ s with ctxEnd := s.ctxEnd + 1 }, s.ctxEnd, ⟨.closed, .ctx, .construct u, none, none⟩)
  | a :: rest => do
    let ctx ← s.ctxs a
    some ({ s with listAvaiTcpHandle := rest }, a, { ctx with parentAcceptclient := none })

/-- Put a context at the back of the list. -/
def pushBack (a : ℕ) (ctx : TcpClientCtx) : CTCPServer B :=
  { s.setCtx a ctx with listAvaiTcpHandle := s.listAvaiTcpHandle ++ [a] }

/-- Put a context at the back of the list, or `FreeTcpClientCtx` when the list is long. -/
def recycle (a : ℕ) : Option (CTCPServer B) := do
  let _ ← s.ctxs a
  if maxListSize < s.listAvaiTcpHandle.length then
    some { s with ctxs := Function.update s.ctxs a none }
  else some { s with listAvaiTcpHandle := s.listAvaiTcpHandle ++ [a] }

/-- `new AcceptClient`, and its insertion into the map under the mutex. -/
def newAcceptClient (a : ℕ) (ctx : TcpClientCtx) (clientid : ℤ) : Option (CTCPServer B) :=
  let c := s.clientEnd
  let s := { s.setCtx a { ctx with parentAcceptclient := some c } with
    clients := Function.update s.clients c (some ⟨a, clientid, false⟩), clientEnd := c + 1 }
  if s.mutexClients then none
  else if s.mapClientsList.any (·.1 == clientid) then some s
  else some { s with mapClientsList := s.mapClientsList ++ [(clientid, c)] }

/-- `AcceptConnection` once it has a context. -/
def acceptCtx (a : ℕ) (ctx : TcpClientCtx) (r : AcceptResults) : Option (CTCPServer B) :=
  if r.tcpInit ≠ 0 then some (s.pushBack a ctx)
  else
    let clientid := toInt (s.clientIds + 1)
    let s := { s with clientIds := clientid }
    let ctx := { ctx with tcphandle := .init, data := .ctx, clientid := some clientid }
    if r.accept ≠ 0 then some (s.pushBack a ctx)
    else
      let conn := s.connectionEnd
      let s := { s with connectionEnd := conn + 1 }
      let packet := ctx.packet.setPacketCb.start serverPacketHead serverPacketTail
      if r.readStart ≠ 0 then
        some (s.setCtx a { ctx with packet := packet, tcphandle := .closing .recycle })
      else s.newAcceptClient a { ctx with packet := packet, tcphandle := .reading conn } clientid

/-- `AcceptConnection`. -/
def acceptConnection (u : Uninit) (r : AcceptResults) : Option (CTCPServer B) :=
  if r.status ≠ 0 then some s
  else do
    let (s, a, ctx) ← s.takeCtx u
    s.acceptCtx a ctx r

/-- `AfterRecv` with data. -/
def afterRecv (a : ℕ) (c : Chunk B) : Option (CTCPServer B) := do
  let ctx ← s.ctxs a
  match ctx.tcphandle, ctx.data with
  | .reading n, .ctx =>
    let conn := s.connections n
    match ctx.packet.recvdata B c.bytes with
    | .done p out =>
      some { s.setCtx a { ctx with packet := p } with
        connections := Function.update s.connections n
          ⟨conn.received ++ [c], conn.parsed ++ out.map Delivery.packet⟩ }
    | _ =>
      some { s with
        connections := Function.update s.connections n ⟨conn.received ++ [c], conn.parsed⟩
        crashed := true }
  | _, _ => none

/-- `AcceptClient::Close`. -/
def closeClient (c : ℕ) : Option (CTCPServer B) := do
  let client ← s.clients c
  if client.isClosed then some s
  else
    let ctx ← s.ctxs client.clientHandle
    let ctx ← ctx.uvClose .client
    some (s.setCtx client.clientHandle { ctx with data := .acceptClient c })

/-- `AfterRecv` with an error or the end of the stream. -/
def afterRecvError (a : ℕ) : Option (CTCPServer B) := do
  let ctx ← s.ctxs a
  match ctx.tcphandle, ctx.data with
  | .reading _, .ctx => do
    let c ← ctx.parentAcceptclient
    s.closeClient c
  | _, _ => none

/-- `SubClientClosed`. The destructor of a client that is not closed waits for ever. -/
def subClientClosed (clientid : ℤ) : Option (CTCPServer B) :=
  if s.mutexClients then none
  else
    match s.mapClientsList.find? (·.1 == clientid) with
    | none => some s
    | some (_, c) => do
      let client ← s.clients c
      let s ← s.recycle client.clientHandle
      if client.isClosed then
        some { s with
          clients := Function.update s.clients c none
          mapClientsList := s.mapClientsList.filter (·.1 != clientid) }
      else none

/-- `AcceptClient::AfterClientClose`. -/
def afterClientClose (a c : ℕ) : Option (CTCPServer B) := do
  let client ← s.clients c
  if client.clientHandle = a then
    let clients := Function.update s.clients c (some { client with isClosed := true })
    subClientClosed { s with clients := clients } client.clientId
  else some s

/-- The close callback of a handle runs. -/
def closeCallback (a : ℕ) : Option (CTCPServer B) := do
  let ctx ← s.ctxs a
  let s := s.setCtx a { ctx with tcphandle := .closed }
  match ctx.tcphandle, ctx.data with
  | .closing .client, .acceptClient c => s.afterClientClose a c
  | .closing .recycle, .ctx => s.recycle a
  | .closing .server, _ => some s
  | _, _ => none

/-- `closeinl`, which leaves the mutex locked. -/
def closeinl : Option (CTCPServer B) :=
  if s.isClosed then some s
  else if s.mutexClients then none
  else do
    let s ← s.mapClientsList.foldlM (fun s client => s.closeClient client.2)
      { s with mutexClients := true }
    some { s with listening := false, ctxs := fun a => (s.ctxs a).map TcpClientCtx.closeWalk }

/-- `Close`. -/
def close : CTCPServer B := if s.isClosed then s else { s with isUserAskForClosed := true }

/-- `CTCPHandle::AsyncCloseCB`; the server has nothing of its own to send. -/
def asyncCloseCb : Option (CTCPServer B) := if s.isUserAskForClosed then s.closeinl else some s

/-- What libuv and the user do: a connection is there to be accepted, data or an error arrive on the
handle of a context, a close callback is due, the user closes the server, the loop is woken up. -/
inductive Event (B : Build)
  | accept (u : Uninit) (r : AcceptResults)
  | recv (a : ℕ) (c : Chunk B)
  | recvError (a : ℕ)
  | closed (a : ℕ)
  | userClose
  | async

/-- The callback of an event, from its start to its end. -/
def callback (s : CTCPServer B) : Event B → Option (CTCPServer B)
  | .accept u r => if s.listening then s.acceptConnection u r else none
  | .recv a c => if 0 < c.bytes.length ∧ c.bytes.length ≤ bufferSize then s.afterRecv a c else none
  | .recvError a => s.afterRecvError a
  | .closed a => s.closeCallback a
  | .userClose => some s.close
  | .async => s.asyncCloseCb

/-- The next event, unless the server has crashed. -/
def step (s : CTCPServer B) (e : Event B) : Option (CTCPServer B) :=
  if s.crashed then none else s.callback e

end CTCPServer

end SimpleUv
