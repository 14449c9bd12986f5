import SimpleUv.PacketSync.ParsePacket
import SimpleUv.TcpServer.Isolation
import SimpleUv.TcpServer.Requests

/-!
# The gateway

`CTestGateWay` is a server that gives every request a session id, remembers the context the request came
on, and passes the request to the thread of `CTestServerCenter`; each request has a thousand replies,
and `OnUvThreadMessage` sends a reply to the context that its session remembers. Sessions are not ended
when their connection is, and contexts are recycled and freed: a reply goes to the connection of its
request exactly as long as the remembered context has not been freed or given to another connection
(`repliesToRequester_iff`), which is the case while the connection stays open
(`repliesToRequester_of_open`).

The two message queues between the threads are lists, and each message in them has the number of its
request. For each request the state has its connection, and for each reply that was written the number
of its request and the connection it was written on.
-/

namespace SimpleUv

open Foundations

/-- `TEST_MSG`. -/
def testMsg : ℕ := 11000

/-- `CTestMsg`. -/
structure CTestMsg where
  nSessionID : ℤ
  nTimes : ℤ

namespace CTestMsg

variable (B : Build)

/-- `sizeof(CTestMsg)`. -/
def size : ℕ := 8

/-- The bytes of the object. Those of an `int` are the ones `Int32ToChar` writes, since its two
conversions of the byte order cancel. -/
def bytes (m : CTestMsg) : List Byte :=
  int32ToChar B (.ofInt 32 m.nSessionID) ++ int32ToChar B (.ofInt 32 m.nTimes)

/-- The object at an address. -/
def ofBytes (bytes : List Byte) : CTestMsg :=
  ⟨(charToInt32 B bytes).toInt, (charToInt32 B (bytes.drop 4)).toInt⟩

end CTestMsg

/-- A message between the threads, with the number of its request. -/
structure Ticket where
  request : ℕ
  msg : CTestMsg

/-- `CTestServerCenter::OnUvThreadMessage`: the messages it sends back. -/
def CTestServerCenter.onUvThreadMessage (t : Ticket) : List Ticket :=
  (List.range 1000).map fun i : ℕ => { t with msg := { t.msg with nTimes := (i : ℤ) } }

theorem CTestServerCenter.head?_onUvThreadMessage (t : Ticket) :
    (onUvThreadMessage t).head? = some { t with msg := { t.msg with nTimes := 0 } } := by
  rw [onUvThreadMessage, List.head?_map, List.head?_range]
  rfl

/-- `CTestGateWay`, the thread of the centre, and the queues between them. -/
structure CTestGateWay (B : Build) where
  server : SendingServer B
  nSessionID : ℤ
  mapSession : ℤ → Option ℕ
  centerRegistered : Bool
  toCenter : List Ticket
  toGateWay : List Ticket
  requests : List ℕ
  replies : List (ℕ × ℕ)
  fault : Bool

/-- `UV_EBADF`, the result of `uv_write` on a handle without a connection. -/
def uvEbadf : ℤ := -9

namespace CTestGateWay

variable {B : Build}

/-- The gateway when `Start` returns. -/
def start (B : Build) : CTestGateWay B where
  server := .start B
  nSessionID := 0
  mapSession _ := none
  centerRegistered := false
  toCenter := []
  toGateWay := []
  requests := []
  replies := []
  fault := false

/-- What happens to the gateway: the events of its server, the start of the centre, a message that the
centre takes, and one that the gateway takes, with the uninitialised memory of `PacketData` and the
result of `uv_write` on a connection. -/
inductive Event (B : Build)
  | server (e : SendingServer.Event B)
  | startCenter
  | center
  | reply (l : Locals B) (res : ℤ)

section Step

variable (s : CTestGateWay B)

/-- `OnUvMessage`, for a request on the connection `conn`. A message to a thread that is not registered
is dropped. -/
def onUvMessage (msg : CTestMsg) (pClient conn : ℕ) : CTestGateWay B :=
  let test := { msg with nSessionID := s.nSessionID }
  { s with
    nSessionID := toInt (s.nSessionID + 1)
    mapSession := Function.update s.mapSession test.nSessionID (some pClient)
    toCenter := if s.centerRegistered then s.toCenter ++ [⟨s.requests.length, test⟩] else s.toCenter
    requests := s.requests ++ [conn] }

/-- `ParsePacket`. Bytes of the object outside the buffer count as zero. -/
def parsePacket (a conn : ℕ) (d : Delivery) : CTestGateWay B :=
  match CTCPHandle.getPacket [⟨testMsg, CTestMsg.size⟩] d with
  | some m => s.onUvMessage (.ofBytes B (m.msg.getD [])) a conn
  | none => s

/-- The calls of `ParsePacket` in an event of the server, which was in the state `before`. -/
def parsePackets (before : CTCPServer B) : SendingServer.Event B → CTestGateWay B
  | .callback (.recv a c) =>
    match before.ctxs a with
    | none => s
    | some ctx =>
      match ctx.tcphandle, ctx.packet.recvdata B c.bytes with
      | .reading n, .done _ out => out.foldl (fun s d => s.parsePacket a n d) s
      | _, _ => s
  | _ => s

/-- `SendUvMessage` to a context. -/
def sendUvMessage (t : Ticket) (a : ℕ) (l : Locals B) (res : ℤ) : Option (CTestGateWay B) := do
  let senddata := CTCPHandle.packetData B l (t.msg.bytes B) testMsg
  let ctx ← s.server.server.ctxs a
  match ctx.tcphandle with
  | .reading n => do
    let (server, sent) ← s.server.sendinl senddata a res
    some { s with
      server := server, replies := if sent then s.replies ++ [(t.request, n)] else s.replies }
  | _ => do
    let (server, _) ← s.server.sendinl senddata a uvEbadf
    some { s with server := server }

/-- `OnUvThreadMessage`. An access to a freed context is recorded. -/
def onUvThreadMessage (t : Ticket) (l : Locals B) (res : ℤ) : CTestGateWay B :=
  match s.mapSession t.msg.nSessionID with
  | none => s
  | some a => (s.sendUvMessage t a l res).getD { s with fault := true }

/-- What an event does. -/
def step (s : CTestGateWay B) : Event B → Option (CTestGateWay B)
  | .server e =>
    if s.fault then none
    else (s.server.step e).map fun server =>
      { s with server := server }.parsePackets s.server.server e
  | .startCenter => some { s with centerRegistered := true }
  | .center =>
    match s.toCenter with
    | [] => none
    | t :: rest =>
      some { s with
        toCenter := rest, toGateWay := s.toGateWay ++ CTestServerCenter.onUvThreadMessage t }
  | .reply l res =>
    if s.fault ∨ s.server.server.crashed then none
    else
      match s.toGateWay with
      | [] => none
      | t :: rest => some ({ s with toGateWay := rest }.onUvThreadMessage t l res)

end Step

/-- **Replies go only to the requester**, and no freed context is touched. -/
def RepliesToRequester (s : CTestGateWay B) : Prop :=
  s.fault = false ∧ ∀ k n, (k, n) ∈ s.replies → s.requests[k]? = some n

/-- The context that the session of a reply remembers is allocated, and if `uv_write` takes the reply,
the context reads from the connection of the request or from none. -/
def Remembered (s : CTestGateWay B) : Event B → Prop
  | .reply _ res => ∀ t ∈ s.toGateWay.head?, ∀ a, s.mapSession t.msg.nSessionID = some a →
      ∃ ctx, s.server.server.ctxs a = some ctx ∧
        ∀ n, ctx.tcphandle = .reading n → res = 0 → s.requests[t.request]? = some n
  | _ => True

/-! ## Runs -/

/-- What holds of the gateway while nothing has gone wrong. -/
structure Inv (s : CTestGateWay B) : Prop where
  replies : s.RepliesToRequester
  requests : ∃ r : RequestServer, r.Inv ∧ r.Matches s.server

variable {s t : CTestGateWay B} {e : Event B} {a n : ℕ}

theorem inv_start (B : Build) : (start B).Inv :=
  ⟨⟨rfl, fun _ _ h => by cases h⟩, .start, RequestServer.inv_start, RequestServer.matches_start⟩

/-- New requests come in, and nothing else. -/
structure Hears (s t : CTestGateWay B) : Prop where
  server : t.server = s.server
  replies : t.replies = s.replies
  fault : t.fault = s.fault
  requests : s.requests <+: t.requests

theorem Hears.refl (s : CTestGateWay B) : Hears s s := ⟨rfl, rfl, rfl, List.prefix_rfl⟩

theorem Hears.trans {u : CTestGateWay B} (h₁ : Hears s t) (h₂ : Hears t u) : Hears s u :=
  ⟨h₂.server.trans h₁.server, h₂.replies.trans h₁.replies, h₂.fault.trans h₁.fault,
    h₁.requests.trans h₂.requests⟩

theorem hears_parsePacket (s : CTestGateWay B) (a n : ℕ) (d : Delivery) :
    Hears s (s.parsePacket a n d) := by
  unfold parsePacket
  split
  · exact ⟨rfl, rfl, rfl, List.prefix_append _ _⟩
  · exact .refl s

theorem hears_parsePackets (s : CTestGateWay B) (before : CTCPServer B) (e : SendingServer.Event B) :
    Hears s (s.parsePackets before e) := by
  have hfold : ∀ (out : List Delivery) (a n : ℕ) (s : CTestGateWay B),
      Hears s (out.foldl (fun s d => s.parsePacket a n d) s) := by
    intro out a n
    induction out with
    | nil => exact .refl
    | cons d out ih => exact fun s => (hears_parsePacket s a n d).trans (ih _)
  unfold parsePackets
  split
  · split
    · exact .refl s
    · split
      · exact hfold _ _ _ s
      · exact .refl s
  · exact .refl s

/-- The invariant looks at the server, the requests, the replies and the fault only. -/
theorem Inv.hears (h : s.Inv) (ht : Hears s t) : t.Inv where
  replies := by
    refine ⟨ht.fault.trans h.replies.1, fun k n hk => ?_⟩
    rw [ht.replies] at hk
    have hget := h.replies.2 k n hk
    obtain ⟨rest, hrest⟩ := ht.requests
    rw [← hrest, List.getElem?_append_left (List.getElem?_eq_some_iff.1 hget).1, hget]
  requests := by
    rw [ht.server]
    exact h.requests

/-- The frame of a message is not empty. -/
theorem packetData_ne_nil (l : Locals B) (msg : List Byte) (nMsgType : ℕ) :
    CTCPHandle.packetData B l msg nMsgType ≠ [] := by
  have hwire := (Framing.mk (l.packet msg nMsgType) (some msg) l.packchar rfl).wire_eq
  rw [show CTCPHandle.packetData B l msg nMsgType = _ from hwire]
  exact List.cons_ne_nil _ _

/-- **A reply to a context that is allocated** is written on the connection the context reads from, if
there is one and `uv_write` takes it. -/
theorem Inv.sendUvMessage (h : s.Inv) (tk : Ticket) {ctx : TcpClientCtx} (l : Locals B) (res : ℤ)
    (hctx : s.server.server.ctxs a = some ctx) :
    ∃ t, s.sendUvMessage tk a l res = some t ∧ t.requests = s.requests ∧ t.fault = s.fault ∧
      (∃ r : RequestServer, r.Inv ∧ r.Matches t.server) ∧
      ∀ k n, (k, n) ∈ t.replies ↔ (k, n) ∈ s.replies ∨
        k = tk.request ∧ ctx.tcphandle = .reading n ∧ res = 0 := by
  obtain ⟨r, hr, hmatches⟩ := h.requests
  have hdata := packetData_ne_nil l (tk.msg.bytes B) testMsg
  unfold CTestGateWay.sendUvMessage
  rw [hctx]
  cases hstage : ctx.tcphandle with
  | reading m =>
    obtain ⟨o, ho, -, hserver⟩ := hmatches.sends hr hdata hctx res
    simp only [Option.bind_eq_bind, Option.bind_some, hstage, ho]
    refine ⟨_, rfl, rfl, rfl, hserver, fun k n => ?_⟩
    by_cases hres : res = 0
    · simp only [hres, decide_true, if_true, List.mem_append, List.mem_singleton, Prod.mk.injEq,
        TcpHandle.reading.injEq, and_true, eq_comm (a := m)]
    · simp only [hres, decide_false, Bool.false_eq_true, if_false, and_false, or_false]
  | closed | init | closing =>
    obtain ⟨o, ho, -, hserver⟩ := hmatches.sends hr hdata hctx uvEbadf
    simp only [Option.bind_eq_bind, Option.bind_some, hstage, ho]
    exact ⟨_, rfl, rfl, rfl, hserver, fun k n => by simp⟩

/-- **A reply is right** exactly when the context that its session remembers is. -/
theorem Inv.onUvThreadMessage (h : s.Inv) (tk : Ticket) (l : Locals B) (res : ℤ) :
    (∃ r : RequestServer, r.Inv ∧ r.Matches (s.onUvThreadMessage tk l res).server) ∧
      ((s.onUvThreadMessage tk l res).RepliesToRequester ↔
        ∀ a, s.mapSession tk.msg.nSessionID = some a → ∃ ctx, s.server.server.ctxs a = some ctx ∧
          ∀ n, ctx.tcphandle = .reading n → res = 0 → s.requests[tk.request]? = some n) := by
  unfold CTestGateWay.onUvThreadMessage
  cases hsession : s.mapSession tk.msg.nSessionID with
  | none => exact ⟨h.requests, fun _ => nofun, fun _ => h.replies⟩
  | some a =>
    simp only [Option.some.injEq, forall_eq']
    cases hctx : s.server.server.ctxs a with
    | none =>
      have hnone : s.sendUvMessage tk a l res = none := by
        unfold CTestGateWay.sendUvMessage
        rw [hctx]
        rfl
      rw [hnone, Option.getD_none]
      refine ⟨h.requests, fun ht => ?_, ?_⟩
      · cases ht.1
      · rintro ⟨ctx, hctx', -⟩
        cases hctx'
    | some ctx =>
      obtain ⟨t, ht, hrequests, hfault, hserver, hreplies⟩ := h.sendUvMessage tk l res hctx
      rw [ht, Option.getD_some]
      refine ⟨hserver, fun hright => ?_, ?_⟩
      · refine ⟨ctx, rfl, fun n hn hres => ?_⟩
        rw [← hrequests]
        exact hright.2 _ _ ((hreplies _ _).2 (.inr ⟨rfl, hn, hres⟩))
      · rintro ⟨ctx', hctx', hn⟩
        cases hctx'
        refine ⟨hfault.trans h.replies.1, fun k n hk => ?_⟩
        rw [hrequests]
        rcases (hreplies k n).1 hk with hold | ⟨rfl, hstage, hres⟩
        · exact h.replies.2 k n hold
        · exact hn n hstage hres

/-- **One step.** The write requests are kept in any case. -/
theorem Inv.step (h : s.Inv) (hs : s.step e = some t) :
    (∃ r : RequestServer, r.Inv ∧ r.Matches t.server) ∧
      (t.RepliesToRequester ↔ s.Remembered e) := by
  cases e with
  | server e =>
    simp only [CTestGateWay.step, Option.ite_none_left_eq_some] at hs
    obtain ⟨server, hserver, rfl⟩ := Option.map_eq_some_iff.1 hs.2
    obtain ⟨r, hr, hmatches⟩ := h.requests
    obtain ⟨-, r', -, hr', hmatches'⟩ := hmatches.step hr hserver
    have hinv : Inv { s with server := server } := ⟨h.replies, r', hr', hmatches'⟩
    have hheard := hinv.hears (hears_parsePackets _ s.server.server e)
    exact ⟨hheard.requests, fun _ => trivial, fun _ => hheard.replies⟩
  | startCenter =>
    cases hs
    exact ⟨h.requests, fun _ => trivial, fun _ => h.replies⟩
  | center =>
    simp only [CTestGateWay.step] at hs
    split at hs
    · cases hs
    · cases hs
      exact ⟨h.requests, fun _ => trivial, fun _ => h.replies⟩
  | reply l res =>
    simp only [CTestGateWay.step, Option.ite_none_left_eq_some] at hs
    replace hs := hs.2
    unfold Remembered
    split at hs
    · cases hs
    · next tk rest hqueue =>
      have hinv : Inv { s with toGateWay := rest } := ⟨h.replies, h.requests⟩
      cases hs
      rw [hqueue]
      simp only [List.head?_cons, Option.mem_some_iff, forall_eq']
      exact hinv.onUvThreadMessage tk l res

/-- **Replies go only to the requester** exactly as long as, whenever a reply is handled, the context
that its session remembers has not been freed and does not read from another connection (on which
`uv_write` takes the reply). -/
theorem repliesToRequester_iff (B : Build) (es : List (Event B)) :
    Always step RepliesToRequester (start B) es ↔ Along step Remembered (start B) es :=
  always_iff_along (A := fun _ => True) (I := Inv)
    (fun _ _ _ hs _ hok hstep => ⟨(hs.step hstep).2.2 hok, (hs.step hstep).1⟩)
    (fun _ _ _ hs _ hok hstep hright => hok ((hs.step hstep).2.1 hright))
    (fun _ hs => hs.replies) (inv_start B) fun _ _ => trivial

/-- A call that delivers one request. -/
theorem parsePackets_single {before : CTCPServer B} {c : Chunk B} {ctx : TcpClientCtx}
    {p : CPacketSync} {d : Delivery} {m : UvMessage} (hctx : before.ctxs a = some ctx)
    (hconn : ctx.tcphandle = .reading n) (hcall : ctx.packet.recvdata B c.bytes = .done p [d])
    (hm : CTCPHandle.getPacket [⟨testMsg, CTestMsg.size⟩] d = some m) :
    s.parsePackets before (.callback (.recv a c)) =
      s.onUvMessage (.ofBytes B (m.msg.getD [])) a n := by
  simp only [parsePackets, hctx, hconn, hcall, List.foldl_cons, List.foldl_nil, parsePacket, hm]

/-- The invariant holds where replies go to the requester. -/
theorem always_inv (h : s.Inv) {es : List (Event B)} (hes : Always step RepliesToRequester s es) :
    Always step Inv s es := by
  induction es generalizing s with
  | nil => exact h
  | cons e es ih =>
    refine ⟨h, fun t ht => ih ?_ (hes.2 t ht)⟩
    exact ⟨(hes.2 t ht).here, (h.step ht).1⟩

/-- A request: the frame of a `CTestMsg`. -/
def request : Outgoing zeroBuild where
  packet := ⟨1, serverPacketHead, serverPacketTail, .replicate 16 0, testMsg, CTestMsg.size, 0⟩
  data := some (.replicate 8 0)
  packchar := .replicate _ 0
  header_eq := rfl
  tail_eq := rfl
  datalen_eq := rfl
  datalen_le := by decide

/-- The call that receives it. -/
def requestChunk : Chunk zeroBuild := ⟨wires [request], by decide⟩

/-- A client sends a request and leaves. Its context is recycled for the next client, and then the
reply comes. -/
def lateReply : List (Event zeroBuild) :=
  [.startCenter, .server (.callback (.accept zeroUninit .ok)),
    .server (.callback (.recv 0 requestChunk)), .center,
    .server (.callback (.recvError 0)), .server (.callback (.closed 0)),
    .server (.callback (.accept zeroUninit .ok)), .reply ⟨request.packet, .replicate _ 0⟩ 0]

/-- The gateway after the centre has answered the request. -/
def answered (p : CPacketSync) (connections : ℕ → Connection zeroBuild) (queue : List Ticket) :
    CTestGateWay zeroBuild :=
  { start zeroBuild with
    server := ⟨CTCPServer.served p connections, [], []⟩
    nSessionID := 1
    mapSession := Function.update (fun _ => none) 0 (some 0)
    centerRegistered := true
    toGateWay := queue
    requests := [0] }

/-- The centre takes the request, which was given the session id 0. -/
theorem step_center (p : CPacketSync) (connections : ℕ → Connection zeroBuild) (msg : CTestMsg) :
    step ({ start zeroBuild with
      server := ⟨CTCPServer.served p connections, [], []⟩, centerRegistered := true }.onUvMessage
        msg 0 0) .center =
      some (answered p connections (CTestServerCenter.onUvThreadMessage ⟨0, ⟨0, msg.nTimes⟩⟩)) := by
  have hnext : toInt (0 + 1) = 1 := rfl
  simp only [step, answered, onUvMessage, start, if_true, List.nil_append, List.length_nil, hnext]

/-- The request is given the session id 0. -/
theorem exec_request : ∃ p connections queue, exec step (start zeroBuild) (lateReply.take 4) =
    some (answered p connections queue) ∧
      ∃ tk ∈ queue.head?, tk.request = 0 ∧ tk.msg.nSessionID = 0 := by
  have hrange : InRange zeroBuild ([] ++ requestChunk.bytes) := inRange_wires [request]
  obtain ⟨q, ds, hcall, htracks⟩ := (Tracks.fresh zeroBuild zeroUninit).recv requestChunk hrange
  have hds : ds.map Delivery.packet = [request.delivered] := by
    have hrun := (run_wires [request] []).run_eq
    rw [List.append_nil] at hrun
    have hout := htracks.out_eq
    rw [List.nil_append, List.nil_append,
      show requestChunk.bytes = wires [request] from rfl, hrun] at hout
    exact hout
  obtain ⟨d, rfl, hd⟩ := List.map_eq_singleton_iff.1 hds
  have hctx : CTCPServer.oneConnection.ctxs 0 = some ⟨.reading 0, .ctx,
      .fresh zeroUninit serverPacketHead serverPacketTail, some 1, some 0⟩ := rfl
  have hreceived := CTCPServer.afterRecv_eq hctx rfl rfl hcall
  obtain ⟨connections, hreceived⟩ : ∃ connections,
      CTCPServer.oneConnection.afterRecv 0 requestChunk = some (CTCPServer.served q connections) :=
    ⟨_, hreceived⟩
  have hserver : CTCPServer.oneConnection.step (.recv 0 requestChunk) =
      some (CTCPServer.served q connections) := by
    rw [← hreceived]
    simp only [CTCPServer.step, CTCPServer.callback]
    rw [if_neg (by decide), if_pos (by decide)]
  -- the type of the packet is bound, whatever the bytes of the object are
  obtain ⟨m, hm⟩ : ∃ m, CTCPHandle.getPacket [⟨testMsg, CTestMsg.size⟩] d = some m := by
    have htype : d.packethead.type = testMsg := congrArg (fun x => x.packethead.type) hd
    exact ⟨_, by rw [CTCPHandle.getPacket, CTCPHandle.parsePacket, if_pos htype.symm]⟩
  have hrecv : step { start zeroBuild with
      server := ⟨CTCPServer.oneConnection, [], []⟩, centerRegistered := true }
      (.server (.callback (.recv 0 requestChunk))) = some ({ start zeroBuild with
        server := ⟨CTCPServer.served q connections, [], []⟩, centerRegistered := true }.onUvMessage
          (.ofBytes zeroBuild (m.msg.getD [])) 0 0) := by
    simp only [step, SendingServer.step, hserver, Option.map_some]
    rw [if_neg (by decide), parsePackets_single hctx rfl hcall hm]
  exact ⟨q, connections, CTestServerCenter.onUvThreadMessage ⟨0, ⟨0, _⟩⟩, (exec_cons rfl).trans
    ((exec_cons rfl).trans ((exec_cons hrecv).trans (exec_cons (step_center _ _ _)))), _,
    CTestServerCenter.head?_onUvThreadMessage _, rfl, rfl⟩

/-- The client leaves, and the next one is accepted on its context. -/
theorem exec_answered (p : CPacketSync) (connections : ℕ → Connection zeroBuild)
    (queue : List Ticket) : ∃ t ctx, exec step (answered p connections queue)
      ((lateReply.drop 4).take 3) = some t ∧ t.toGateWay = queue ∧ t.mapSession 0 = some 0 ∧
      t.server.server.ctxs 0 = some ctx ∧ ctx.tcphandle = .reading 1 ∧ t.requests = [0] ∧
      t.server.server.crashed = false :=
  ⟨_, _, rfl, rfl, rfl, rfl, rfl, rfl, rfl⟩

/-- **The reply goes to the other client.** -/
theorem lateReply_to_stranger : ¬ Always step RepliesToRequester (start zeroBuild) lateReply := by
  intro h
  obtain ⟨p, connections, queue, hrequest, tk, hhead, hk, hid⟩ := exec_request
  obtain ⟨t, ctx, hanswered, hqueue, hsession, hctx, hconn, hrequests, hcrashed⟩ :=
    exec_answered p connections queue
  have hexec : exec step (start zeroBuild) (lateReply.take 4 ++ (lateReply.drop 4).take 3) = some t :=
    (exec_append_of_exec hrequest).trans hanswered
  have hrun : Always step Inv (start zeroBuild) (lateReply.take 4 ++ (lateReply.drop 4).take 3 ++
      [.reply ⟨request.packet, .replicate _ 0⟩ 0]) := always_inv (inv_start zeroBuild) h
  obtain ⟨hinv, hlast⟩ := hrun.of_exec hexec
  obtain ⟨rest, rfl⟩ := List.head?_eq_some_iff.1 hhead
  obtain ⟨u, hreply⟩ : ∃ u, t.step (.reply ⟨request.packet, .replicate _ 0⟩ 0) = some u := by
    simp only [step, hinv.replies.1, hcrashed, Bool.false_eq_true, or_self, if_false, hqueue]
    exact ⟨_, rfl⟩
  have hremembered := (hinv.step hreply).2.1 (hlast _ hreply).replies
  obtain ⟨ctx', hctx', hright⟩ := hremembered tk (by rw [hqueue]; exact hhead) 0 (by rw [hid, hsession])
  rw [hctx] at hctx'
  cases hctx'
  have hget := hright 1 hconn rfl
  rw [hk, hrequests] at hget
  cases hget

/-! ## Connections that stay open -/

/-- The number of session ids. -/
def sessionIds : ℕ := 2 ^ 32

/-- Every connection is on one context, and the session of a request remembers that of its connection,
until the counter of sessions comes round. -/
structure Homes (s : CTestGateWay B) : Prop where
  lt : ∀ a ctx n, s.server.server.ctxs a = some ctx → ctx.tcphandle = .reading n →
    n < s.server.server.connectionEnd
  distinct : ∀ a b ctx ctx' n, s.server.server.ctxs a = some ctx → s.server.server.ctxs b = some ctx' →
    ctx.tcphandle = .reading n → ctx'.tcphandle = .reading n → a = b
  session : ∀ k n, s.requests[k]? = some n → n < s.server.server.connectionEnd ∧
    (s.requests.length ≤ k + sessionIds → ∃ a, s.mapSession (toInt k) = some a ∧
      ∀ b ctx, s.server.server.ctxs b = some ctx → ctx.tcphandle = .reading n → b = a)
  next : s.nSessionID = toInt s.requests.length
  tickets : ∀ tk ∈ s.toCenter ++ s.toGateWay, tk.msg.nSessionID = toInt tk.request

theorem homes_start (B : Build) : (start B).Homes where
  lt a ctx n h := by cases h
  distinct a b ctx ctx' n h := by cases h
  session k n h := by cases h
  next := (toInt_eq (x := 0) (by norm_num) (by norm_num)).symm
  tickets tk h := by cases h

/-- A request on a connection that is on the context. -/
theorem Homes.onUvMessage (h : s.Homes) (msg : CTestMsg) (hn : n < s.server.server.connectionEnd)
    (hhome : ∀ b ctx, s.server.server.ctxs b = some ctx → ctx.tcphandle = .reading n → b = a) :
    (s.onUvMessage msg a n).Homes where
  lt := h.lt
  distinct := h.distinct
  session k m hk := by
    unfold CTestGateWay.onUvMessage at hk ⊢
    simp only at hk ⊢
    rw [h.next, List.length_append, List.length_singleton]
    rcases Nat.lt_trichotomy k s.requests.length with hlt | rfl | hgt
    · rw [List.getElem?_append_left hlt] at hk
      obtain ⟨hm, hsession⟩ := h.session k m hk
      refine ⟨hm, fun hle => ?_⟩
      obtain ⟨c, hc, hhome⟩ := hsession (by omega)
      have hids : s.requests.length < k + 2 ^ 32 := by
        unfold sessionIds at hle
        omega
      exact ⟨c, by rw [Function.update_of_ne (toInt_ne hlt hids), hc], hhome⟩
    · rw [List.getElem?_append_right le_rfl, Nat.sub_self] at hk
      cases hk
      exact ⟨hn, fun _ => ⟨a, Function.update_self _ _ _, hhome⟩⟩
    · rw [List.getElem?_eq_none (by rw [List.length_append, List.length_singleton]; omega)] at hk
      cases hk
  next := by
    unfold CTestGateWay.onUvMessage
    simp only
    rw [h.next, toInt_toInt_add, List.length_append, List.length_singleton, Nat.cast_add, Nat.cast_one]
  tickets tk htk := by
    have hnew : ∀ q : List Ticket, tk ∈ (if s.centerRegistered then
        q ++ [⟨s.requests.length, { msg with nSessionID := s.nSessionID }⟩] else q) → tk ∈ q ∨
          tk = ⟨s.requests.length, { msg with nSessionID := s.nSessionID }⟩ := by
      intro q hq
      split_ifs at hq
      · exact (List.mem_append.1 hq).imp_right List.mem_singleton.1
      · exact .inl hq
    rcases List.mem_append.1 htk with htk | htk
    · rcases hnew _ htk with hold | rfl
      · exact h.tickets tk (List.mem_append_left _ hold)
      · exact h.next
    · exact h.tickets tk (List.mem_append_right _ htk)

theorem moves_of_step {o : SendingServer B} {e : SendingServer.Event B}
    (hs : s.server.step e = some o) : CTCPServer.Moves s.server.server o.server := by
  have hsame : o.server = s.server.server → CTCPServer.Moves s.server.server o.server := fun heq =>
    heq ▸ (CTCPServer.Keeps.refl _).moves
  cases e with
  | callback e =>
    obtain ⟨v, hv, rfl⟩ := Option.map_eq_some_iff.1 hs
    exact CTCPServer.moves_of_step hv
  | broadcast senddata excludeid res =>
    simp only [SendingServer.step, Option.ite_none_left_eq_some] at hs
    exact hsame (SendingServer.broadcast_server hs.2)
  | afterSend i status =>
    simp only [SendingServer.step, Option.ite_none_left_eq_some] at hs
    exact hsame (SendingServer.afterSend_server hs.2)

/-- What the sessions remember holds on when connections keep their contexts. -/
theorem Homes.moves (h : s.Homes) {o : SendingServer B}
    (hm : CTCPServer.Moves s.server.server o.server) : Homes { s with server := o } := by
  have ⟨hle, c, hreading⟩ := hm
  refine ⟨fun a ctx n ha hn => ?_, fun a b ctx ctx' n ha hb hn hn' => ?_, fun k n hk => ?_, h.next,
    h.tickets⟩
  · rcases hreading a ctx n ha hn with ⟨ctx₀, hctx₀, hn₀⟩ | ⟨-, -, hlt⟩
    · exact (h.lt a ctx₀ n hctx₀ hn₀).trans_le hle
    · exact hlt
  · rcases hreading a ctx n ha hn with ⟨ctx₀, hctx₀, hn₀⟩ | ⟨rfl, hnew, -⟩
    · refine (hm.stays (h.lt a ctx₀ n hctx₀ hn₀) (fun b' ctx₁ hb' hn₁ => ?_) b ctx' hb hn').symm
      exact h.distinct b' a ctx₁ ctx₀ n hb' hctx₀ hn₁ hn₀
    · rcases hreading b ctx' n hb hn' with ⟨ctx₀, hctx₀, hn₀⟩ | ⟨rfl, -⟩
      · exact absurd (h.lt b ctx₀ n hctx₀ hn₀) (by omega)
      · rfl
  · obtain ⟨hlt, hsession⟩ := h.session k n hk
    refine ⟨hlt.trans_le hle, fun hids => ?_⟩
    obtain ⟨a, ha, hhome⟩ := hsession hids
    exact ⟨a, ha, hm.stays hlt hhome⟩

theorem Homes.parsePacket (h : s.Homes) (d : Delivery) (hn : n < s.server.server.connectionEnd)
    (hhome : ∀ b ctx, s.server.server.ctxs b = some ctx → ctx.tcphandle = .reading n → b = a) :
    (s.parsePacket a n d).Homes := by
  unfold CTestGateWay.parsePacket
  split
  · exact h.onUvMessage _ hn hhome
  · exact h

/-- Requests on the connection of a context. -/
theorem Homes.parsePackets (h : s.Homes) {before : CTCPServer B} (e : SendingServer.Event B)
    (hhome : ∀ a ctx n, before.ctxs a = some ctx → ctx.tcphandle = .reading n →
      n < s.server.server.connectionEnd ∧
        ∀ b ctx, s.server.server.ctxs b = some ctx → ctx.tcphandle = .reading n → b = a) :
    (s.parsePackets before e).Homes := by
  unfold CTestGateWay.parsePackets
  split
  · next a c =>
    split
    · exact h
    · next ctx hctx =>
      split
      · next n p out hn hcall =>
        obtain ⟨hlt, hstays⟩ := hhome a ctx n hctx hn
        clear hcall
        induction out generalizing s with
        | nil => exact h
        | cons d out ih =>
          have hserver := (hears_parsePacket s a n d).server
          exact ih (h.parsePacket d hlt hstays) (by rw [hserver]; exact hhome)
            (by rw [hserver]; exact hlt) (by rw [hserver]; exact hstays)
      · exact h
  · exact h

/-- A reply changes neither the connections nor the sessions. -/
theorem Homes.onUvThreadMessage (h : s.Homes) (tk : Ticket) (l : Locals B) (res : ℤ) :
    (s.onUvThreadMessage tk l res).Homes := by
  have hsame : ∀ (o : SendingServer B) (replies : List (ℕ × ℕ)), o.server = s.server.server →
      Homes { s with server := o, replies := replies } := by
    intro o replies heq
    obtain ⟨hlt, hdistinct, hsession, hnext, htickets⟩ := h
    rw [← heq] at hlt hdistinct hsession
    exact ⟨hlt, hdistinct, hsession, hnext, htickets⟩
  unfold CTestGateWay.onUvThreadMessage
  split
  · exact h
  · next a ha =>
    cases hsend : s.sendUvMessage tk a l res with
    | none => exact ⟨h.lt, h.distinct, h.session, h.next, h.tickets⟩
    | some t =>
      rw [Option.getD_some]
      obtain ⟨ctx, -, hsend⟩ := Option.bind_eq_some_iff.1 hsend
      split at hsend
      all_goals
        obtain ⟨⟨o, sent⟩, ho, hsend⟩ := Option.bind_eq_some_iff.1 hsend
        cases hsend
        exact hsame _ _ (SendingServer.sendinl_server ho)

/-- **Every step keeps it.** -/
theorem Homes.step (h : s.Homes) (hs : s.step e = some t) : t.Homes := by
  cases e with
  | server e =>
    simp only [CTestGateWay.step, Option.ite_none_left_eq_some] at hs
    obtain ⟨o, ho, rfl⟩ := Option.map_eq_some_iff.1 hs.2
    have hm := moves_of_step ho
    refine (h.moves hm).parsePackets e fun a ctx n hctx hn => ?_
    have hlt := h.lt a ctx n hctx hn
    exact ⟨hlt.trans_le hm.1,
      hm.stays hlt fun b ctx' hb hn' => h.distinct b a ctx' ctx n hb hctx hn' hn⟩
  | startCenter =>
    cases hs
    exact ⟨h.lt, h.distinct, h.session, h.next, h.tickets⟩
  | center =>
    simp only [CTestGateWay.step] at hs
    split at hs
    · cases hs
    · next tk rest hqueue =>
      cases hs
      refine ⟨h.lt, h.distinct, h.session, h.next, fun tk' htk' => ?_⟩
      have htickets := h.tickets
      rw [hqueue] at htickets
      simp only [List.mem_append] at htk'
      rcases htk' with hmem | hmem | hmem
      · exact htickets tk' (List.mem_append_left _ (List.mem_cons_of_mem _ hmem))
      · exact htickets tk' (List.mem_append_right _ hmem)
      · obtain ⟨i, -, rfl⟩ := List.mem_map.1 hmem
        exact htickets tk (List.mem_append_left _ List.mem_cons_self)
  | reply l res =>
    simp only [CTestGateWay.step, Option.ite_none_left_eq_some] at hs
    replace hs := hs.2
    split at hs
    · cases hs
    · next tk rest hqueue =>
      cases hs
      have hrest : Homes { s with toGateWay := rest } := by
        refine ⟨h.lt, h.distinct, h.session, h.next, fun tk' htk' => h.tickets tk' ?_⟩
        rw [hqueue]
        refine (List.mem_append.1 htk').elim (List.mem_append_left _) fun hmem => ?_
        exact List.mem_append_right _ (List.mem_cons_of_mem _ hmem)
      exact hrest.onUvThreadMessage tk l res

/-- The connection of the request of a reply is open, and at most `2 ^ 32` sessions are younger. -/
def Open (s : CTestGateWay B) : Event B → Prop
  | .reply _ _ => ∀ tk ∈ s.toGateWay.head?, s.requests.length ≤ tk.request + sessionIds ∧
      ∃ a ctx n, s.requests[tk.request]? = some n ∧ s.server.server.ctxs a = some ctx ∧
        ctx.tcphandle = .reading n
  | _ => True

/-- Where the connection is open, the session remembers its context. -/
theorem Homes.remembered (h : s.Homes) (hopen : s.Open e) : s.Remembered e := by
  cases e with
  | reply l res =>
    intro tk htk a ha
    obtain ⟨hids, b, ctx, n, hn, hctx, hconn⟩ := hopen tk htk
    obtain ⟨-, hsession⟩ := h.session tk.request n hn
    obtain ⟨c, hc, hhome⟩ := hsession hids
    have htickets := h.tickets tk (List.mem_append_right _ (List.mem_of_mem_head? htk))
    rw [htickets, hc] at ha
    cases ha
    obtain rfl := hhome b ctx hctx hconn
    refine ⟨ctx, hctx, fun m hm _ => ?_⟩
    rw [hconn] at hm
    cases hm
    exact hn
  | server | startCenter | center => trivial

/-- **Replies go only to the requester** in every run in which connections stay open until the replies
to their requests have been handled. -/
theorem repliesToRequester_of_open (B : Build) (es : List (Event B))
    (h : Along step Open (start B) es) : Always step RepliesToRequester (start B) es := by
  refine (always_of_along (I := fun s => s.Inv ∧ s.Homes) (fun s e t hs hopen ht => ?_)
    ⟨inv_start B, homes_start B⟩ h).mono fun s hs => hs.1.replies
  have hstep := hs.1.step ht
  exact ⟨⟨hstep.2.2 (hs.2.remembered hopen), hstep.1⟩, hs.2.step ht⟩

end CTestGateWay

end SimpleUv
