import SimpleUv.TcpClient.Control
import SimpleUv.TcpClient.Stream
import SimpleUv.TcpServer.Isolation

/-!
# What the client receives

The client has one parser for all its connections, and nothing resets it when `ReconnectTimer` begins
the next one. The packets of a connection are those a fresh parser delivers on its bytes as long as the
parser holds no beginning of a frame when the first bytes of a connection arrive
(`received_of_untainted`). Where it does, the first frames of the new connection are taken for the rest
of that frame (`cutFrame_swallows`).
-/

namespace SimpleUv

open Foundations

namespace CTCPClient

variable {B : Build} {s t : CTCPClient B} {e : Event B} {n : ℕ}

/-- Every connection was given the packets a fresh parser delivers on its bytes. -/
def Received (s : CTCPClient B) : Prop :=
  ∀ n, FreshDelivers B (s.connections n).received (s.connections n).parsed

/-- The parser holds nothing that starts a frame when the first bytes of a connection are parsed, and
what arrives is in range. -/
def Untainted (s : CTCPClient B) (e : Event B) : Prop :=
  ∀ n reading c, e = .drain → s.tcphandle = .connected n reading →
    s.out.loop = .sendInl (some c) → c.bytes ≠ [] →
      ((s.connections n).received = [] →
        ((reference B serverPacketHead serverPacketTail).run (s.packet.pending B)).2 = []) ∧
      InRange B (streamOf (s.connections n).received ++ c.bytes)

/-- The parser has parsed what the connection has received. -/
structure Sessions (s : CTCPClient B) : Prop where
  parser : ∃ xs out, Tracks B s.packet xs out
  session : ∀ n, s.tcphandle.socket = some n → (s.connections n).received ≠ [] →
    Tracks B s.packet (streamOf (s.connections n).received) (s.connections n).parsed
  unused : ∀ n, s.connectionEnd ≤ n → s.connections n = ⟨[], []⟩
  socket_lt : ∀ n, s.tcphandle.socket = some n → n < s.connectionEnd
  inRange : ∀ n, InRange B (streamOf (s.connections n).received)
  parsed : ∀ n, (s.connections n).parsed = ((reference B serverPacketHead serverPacketTail).run
    (streamOf (s.connections n).received)).1

theorem Sessions.received (h : s.Sessions) : s.Received := fun n =>
  (freshDelivers_iff (h.inRange n) _).2 (h.parsed n)

theorem sessions_start (memory : List.Vector Byte bufferSize) (u : Uninit) :
    (start B memory u).Sessions where
  parser := ⟨[], [], .fresh B u⟩
  session n hn hne := absurd rfl hne
  unused n hn := rfl
  socket_lt n hn := by
    cases hn
    exact Nat.zero_lt_one
  inRange n := .nil B
  parsed n := rfl

/-- Steps that parse nothing: the socket stays, is closed, or is a new one. -/
theorem Sessions.keeps (h : s.Sessions) (hpacket : t.packet = s.packet)
    (hconn : t.connections = s.connections) (hend : s.connectionEnd ≤ t.connectionEnd)
    (hsocket : ∀ n, t.tcphandle.socket = some n →
      s.tcphandle.socket = some n ∨ n = s.connectionEnd ∧ n < t.connectionEnd) : t.Sessions where
  parser := hpacket ▸ h.parser
  session n hn hne := by
    rw [hpacket, hconn]
    rw [hconn] at hne
    rcases hsocket n hn with hn | ⟨rfl, -⟩
    · exact h.session n hn hne
    · exact absurd (by rw [h.unused _ le_rfl]) hne
  unused n hn := by
    rw [hconn]
    exact h.unused n (hend.trans hn)
  socket_lt n hn := by
    rcases hsocket n hn with hn | ⟨-, hlt⟩
    · exact (h.socket_lt n hn).trans_le hend
    · exact hlt
  inRange n := hconn ▸ h.inRange n
  parsed n := hconn ▸ h.parsed n

/-- What the parser does with the next data of the connection. -/
theorem Sessions.recvdata (h : s.Sessions) {c : Chunk B} (hn : s.tcphandle.socket = some n)
    (hclean : (s.connections n).received = [] →
      ((reference B serverPacketHead serverPacketTail).run (s.packet.pending B)).2 = [])
    (hrange : InRange B (streamOf (s.connections n).received ++ c.bytes)) :
    ∃ p ds, s.packet.recvdata B c.bytes = .done p ds ∧
      Tracks B p (streamOf (s.connections n).received ++ c.bytes)
        ((s.connections n).parsed ++ ds.map Delivery.packet) := by
  refine Tracks.recv ?_ c hrange
  by_cases hfirst : (s.connections n).received = []
  · obtain ⟨xs, out, htracks⟩ := h.parser
    have hparsed := h.parsed n
    rw [hfirst] at hparsed ⊢
    rw [hparsed]
    exact htracks.restart (hclean hfirst)
  · exact h.session n hn hfirst

/-- **Data of the connection is parsed.** -/
theorem Sessions.recv (h : s.Sessions) {c : Chunk B} {p : CPacketSync} {ds : List Delivery}
    (hn : s.tcphandle.socket = some n)
    (htracks : Tracks B p (streamOf (s.connections n).received ++ c.bytes)
      ((s.connections n).parsed ++ ds.map Delivery.packet))
    (hpacket : t.packet = p) (hend : t.connectionEnd = s.connectionEnd)
    (hconn : t.connections = Function.update s.connections n
      ⟨(s.connections n).received ++ [c], (s.connections n).parsed ++ ds.map Delivery.packet⟩)
    (hsocket : t.tcphandle.socket = s.tcphandle.socket) : t.Sessions := by
  have hstream : streamOf ((s.connections n).received ++ [c]) =
      streamOf (s.connections n).received ++ c.bytes := by
    rw [streamOf_append, streamOf_cons, streamOf_nil, List.append_nil]
  have hold : ∀ m, m ≠ n → t.connections m = s.connections m := fun m hm => by
    rw [hconn, Function.update_of_ne hm]
  have hnew : t.connections n = ⟨(s.connections n).received ++ [c],
      (s.connections n).parsed ++ ds.map Delivery.packet⟩ := by
    rw [hconn, Function.update_self]
  refine ⟨⟨_, _, hpacket ▸ htracks⟩, fun m hm _ => ?_, fun m hm => ?_, fun m hm => ?_, fun m => ?_,
    fun m => ?_⟩
  · obtain rfl : n = m := Option.some.inj (hn.symm.trans (hsocket.symm.trans hm))
    rw [hnew, hpacket, hstream]
    exact htracks
  · rw [hend] at hm
    have hlt := h.socket_lt n hn
    rw [hold m (by omega)]
    exact h.unused m hm
  · rw [hend]
    exact h.socket_lt m (hsocket ▸ hm)
  · by_cases hmn : m = n
    · rw [hmn, hnew, hstream]
      exact htracks.range
    · rw [hold m hmn]
      exact h.inRange m
  · by_cases hmn : m = n
    · rw [hmn, hnew, hstream]
      exact htracks.out_eq
    · rw [hold m hmn]
      exact h.parsed m

theorem Sessions.step (h : s.Sessions) (hok : s.Untainted e) (hstep : s.step e = some t) :
    t.Sessions := by
  have hsocket := socket_of_step hstep
  cases step_cases hstep with
  | @received n reading c p ds o hconn hloop hc hcall =>
    have hn : s.tcphandle.socket = some n := by rw [hconn]; rfl
    obtain ⟨hclean, hrange⟩ := hok n reading c rfl hconn hloop hc
    obtain ⟨p', ds', hcall', htracks⟩ := h.recvdata hn hclean hrange
    rw [hcall] at hcall'
    cases hcall'
    exact h.recv hn htracks rfl rfl rfl rfl
  | @faulted n reading c o hconn hloop hc hcall =>
    have hn : s.tcphandle.socket = some n := by rw [hconn]; rfl
    obtain ⟨hclean, hrange⟩ := hok n reading c rfl hconn hloop hc
    obtain ⟨p, ds, hcall', -⟩ := h.recvdata hn hclean hrange
    exact absurd hcall' (hcall p ds)
  | _ =>
    refine h.keeps rfl rfl ?_ fun n hn => ?_
    · rcases hsocket with ⟨hend, -⟩ | ⟨-, -, -, hend⟩ <;> omega
    · rcases hsocket with ⟨-, hsame | hnone⟩ | ⟨-, -, hnew, hend⟩
      · exact .inl (hsame ▸ hn)
      · rw [hnone] at hn
        cases hn
      · rw [hnew] at hn
        cases hn
        exact .inr ⟨rfl, by omega⟩

/-- **The connections of the client are isolated** in every run in which the parser holds no beginning
of a frame when the first bytes of a connection are parsed. -/
theorem received_of_untainted (memory : List.Vector Byte bufferSize) (u : Uninit)
    (es : List (Event B)) (h : Along step Untainted (start B memory u) es) :
    Always step Received (start B memory u) es :=
  (always_of_along (fun _ _ _ hs hok hstep => Sessions.step hs hok hstep) (sessions_start memory u)
    h).mono fun _ hs => hs.received

/-! ## A frame that is cut -/

theorem step_recv {c : Chunk B} (hcrashed : s.crashed = false) (hidle : s.out.loop = .idle)
    (hconn : s.tcphandle = .connected n true) (hdata : s.data = .ctx)
    (hlen : c.bytes.length ≤ bufferSize) :
    s.step (.recv c) = some { s with out := { s.out with loop := .sendInl (some c) } } := by
  rw [step_eq hcrashed, callback, if_pos ⟨idle_iff.2 hidle, hlen⟩]
  simp only [afterRecv, hconn, hdata]

/-- The data is parsed when the ring buffer is empty. -/
theorem step_parse {c : Chunk B} {p : CPacketSync} {ds : List Delivery} (hcrashed : s.crashed = false)
    (hidle : s.out.loop = .idle) (hempty : s.out.buferWrite.empty = true)
    (hconn : s.tcphandle = .connected n true) (hc : c.bytes ≠ [])
    (hcall : s.packet.recvdata B c.bytes = .done p ds) :
    step { s with out := { s.out with loop := .sendInl (some c) } } .drain = some { s with
      packet := p
      connections := Function.update s.connections n
        ⟨(s.connections n).received ++ [c],
          (s.connections n).parsed ++ ds.map Delivery.packet⟩ } := by
  have hout : { s.out with loop := .idle } = s.out := by rw [← hidle]
  rw [step_eq (by exact hcrashed), callback]
  simp only [drain, hempty, if_true, parse, hconn, hc, if_false, hcall, hout]

theorem exec_recv {c : Chunk B} {p : CPacketSync} {ds : List Delivery} (hcrashed : s.crashed = false)
    (hidle : s.out.loop = .idle) (hempty : s.out.buferWrite.empty = true)
    (hconn : s.tcphandle = .connected n true) (hdata : s.data = .ctx) (hc : c.bytes ≠ [])
    (hlen : c.bytes.length ≤ bufferSize) (hcall : s.packet.recvdata B c.bytes = .done p ds) :
    exec step s [.recv c, .drain] = some { s with
      packet := p
      connections := Function.update s.connections n
        ⟨(s.connections n).received ++ [c],
          (s.connections n).parsed ++ ds.map Delivery.packet⟩ } := by
  rw [exec_cons (step_recv hcrashed hidle hconn hdata hlen),
    exec_cons (step_parse hcrashed hidle hempty hconn hc hcall), exec_nil]

/-- Data arrives, the server ends the connection, and data arrives on the next one. -/
def cutFrameRun (c d : Chunk zeroBuild) : List (Event zeroBuild) :=
  [.connected 0 0] ++ ([.recv c, .drain] ++
    (([.recvError, .closed] ++ [.timer .ok, .connected 0 0]) ++ [.recv d, .drain]))

/-- The second connection has received its data. -/
theorem exec_cutFrameRun {c d : Chunk zeroBuild} {p q : CPacketSync} {ds ds' : List Delivery}
    (hc : c.bytes ≠ []) (hd : d.bytes ≠ []) (hlenc : c.bytes.length ≤ bufferSize)
    (hlend : d.bytes.length ≤ bufferSize)
    (hp : zeroStart.packet.recvdata zeroBuild c.bytes = .done p ds)
    (hq : p.recvdata zeroBuild d.bytes = .done q ds') :
    ∃ s, exec step zeroStart (cutFrameRun c d) = some s ∧
      s.connections 1 = ⟨[d], ds'.map Delivery.packet⟩ := by
  have hconnected : exec step zeroStart [.connected 0 0] = some connectedStart := rfl
  have hrecv := exec_recv (s := connectedStart) rfl rfl rfl rfl rfl hc hlenc hp
  refine ⟨_, (exec_append_of_exec hconnected).trans ((exec_append_of_exec hrecv).trans
    ((exec_append_of_exec (exec_nextConnection rfl rfl rfl rfl)).trans
      (exec_recv rfl rfl rfl rfl rfl hd hlend hq))), rfl⟩

/-- After whole frames the parser holds nothing when the next connection begins. -/
theorem received_wholeFrames : Always step Received zeroStart
    (cutFrameRun CTCPServer.wholeFrame CTCPServer.wholeFrame) := by
  refine received_of_untainted _ _ _ ?_
  obtain ⟨p, ds, hcall, htracks⟩ := (Tracks.fresh zeroBuild zeroUninit).recv CTCPServer.wholeFrame
    CTCPServer.inRange_wholeFrame
  have hpending : ((reference zeroBuild serverPacketHead serverPacketTail).run
      (p.pending zeroBuild)).2 = [] :=
    htracks.rest_eq.trans (congrArg Prod.snd CTCPServer.run_wholeFrame)
  refine .cons rfl (fun _ _ _ => nofun) (.cons (step_recv rfl rfl rfl rfl (by decide))
    (fun _ _ _ => nofun) (.cons (step_parse (s := connectedStart) rfl rfl rfl rfl (by decide) hcall) ?_
    (.cons rfl (fun _ _ _ => nofun) (.cons rfl (fun _ _ _ => nofun) (.cons rfl (fun _ _ _ => nofun)
      (.cons rfl (fun _ _ _ => nofun) (.cons (step_recv rfl rfl rfl rfl (by decide))
        (fun _ _ _ => nofun) fun t ht => ⟨?_, trivial⟩)))))))
  · rintro n reading c - ⟨⟩ ⟨⟩ -
    exact ⟨fun _ => rfl, CTCPServer.inRange_wholeFrame⟩
  · rintro n reading c - ⟨⟩ ⟨⟩ -
    exact ⟨fun _ => hpending, CTCPServer.inRange_wholeFrame⟩

/-- The first frame of the second connection is taken for the rest of the cut frame. -/
theorem cutFrame_swallows : ¬ Always step Received zeroStart
    (cutFrameRun CTCPServer.cutFrame CTCPServer.wholeFrame) := by
  intro h
  obtain ⟨p, ds, hcall, htracks⟩ := (Tracks.fresh zeroBuild zeroUninit).recv CTCPServer.cutFrame
    CTCPServer.inRange_cutFrame.of_append
  obtain ⟨q, ds', hcall', htracks'⟩ := htracks.recv CTCPServer.wholeFrame CTCPServer.inRange_cutFrame
  obtain ⟨s, hrun, hconn⟩ := exec_cutFrameRun (by decide) (by decide) (by decide) (by decide) hcall
    hcall'
  have hdelivers := h.last hrun 1
  rw [hconn, freshDelivers_iff (by exact CTCPServer.inRange_wholeFrame)] at hdelivers
  have hout := htracks'.out_eq
  rw [List.nil_append, List.nil_append, Decoder.run_of_decide_none CTCPServer.decide_cutFrame] at hout
  rw [(List.append_eq_nil_iff.1 hout).2, streamOf_cons, streamOf_nil, List.append_nil,
    CTCPServer.run_wholeFrame] at hdelivers
  cases hdelivers

end CTCPClient

end SimpleUv
