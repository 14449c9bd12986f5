import SimpleUv.TcpServer.Server
import SimpleUv.Foundations.Transition

/-!
# What a step of the server does

`Step` lists what a callback of the server can do, one constructor for each way through it. Invariants
of contexts, accept clients and the mutex are proved by cases on it.
-/

namespace SimpleUv

open Foundations

namespace CTCPServer

variable {B : Build}

/-- What `AcceptConnection` does once it has a context. -/
inductive Accepts (s : CTCPServer B) (a : ℕ) (ctx : TcpClientCtx) : CTCPServer B → Prop
  | initFailed : Accepts s a ctx (s.pushBack a ctx)
  | acceptFailed : Accepts s a ctx
      ({ s with clientIds := toInt (s.clientIds + 1) }.pushBack a
        { ctx with tcphandle := .init, data := .ctx, clientid := some (toInt (s.clientIds + 1)) })
  | readFailed : Accepts s a ctx
      ({ s with
          clientIds := toInt (s.clientIds + 1)
          connectionEnd := s.connectionEnd + 1 }.setCtx a { ctx with
        tcphandle := .closing .recycle, data := .ctx, clientid := some (toInt (s.clientIds + 1))
        packet := ctx.packet.setPacketCb.start serverPacketHead serverPacketTail })
  | accepted (mapClientsList : List (ℤ × ℕ)) (hmutex : s.mutexClients = false)
      (hmap : s.mapClientsList.any (·.1 == toInt (s.clientIds + 1)) = true ∧
          mapClientsList = s.mapClientsList ∨
        s.mapClientsList.any (·.1 == toInt (s.clientIds + 1)) = false ∧
          mapClientsList = s.mapClientsList ++ [(toInt (s.clientIds + 1), s.clientEnd)]) :
      Accepts s a ctx { s with
        clientIds := toInt (s.clientIds + 1)
        connectionEnd := s.connectionEnd + 1
        ctxs := Function.update s.ctxs a (some { ctx with
          tcphandle := .reading s.connectionEnd, data := .ctx
          clientid := some (toInt (s.clientIds + 1))
          packet := ctx.packet.setPacketCb.start serverPacketHead serverPacketTail
          parentAcceptclient := some s.clientEnd })
        clients := Function.update s.clients s.clientEnd
          (some ⟨a, toInt (s.clientIds + 1), false⟩)
        clientEnd := s.clientEnd + 1
        mapClientsList := mapClientsList }

/-- The steps of the server. -/
inductive Step (s : CTCPServer B) : Event B → CTCPServer B → Prop
  | same (e : Event B) : Step s e s
  | accept {s₁ t : CTCPServer B} {u : Uninit} {r : AcceptResults} {a : ℕ} {ctx : TcpClientCtx}
      (hlistening : s.listening = true) (htake : s.takeCtx u = some (s₁, a, ctx))
      (haccept : Accepts s₁ a ctx t) : Step s (.accept u r) t
  | received {a n : ℕ} {c : Chunk B} {ctx : TcpClientCtx} {p : CPacketSync} {ds : List Delivery}
      (hctx : s.ctxs a = some ctx) (hconn : ctx.tcphandle = .reading n)
      (hcall : ctx.packet.recvdata B c.bytes = .done p ds) :
      Step s (.recv a c) { s.setCtx a { ctx with packet := p } with
        connections := Function.update s.connections n
          ⟨(s.connections n).received ++ [c], (s.connections n).parsed ++ ds.map Delivery.packet⟩ }
  | faulted {a n : ℕ} {c : Chunk B} {ctx : TcpClientCtx} (hctx : s.ctxs a = some ctx)
      (hconn : ctx.tcphandle = .reading n) :
      Step s (.recv a c) { s with
        connections := Function.update s.connections n
          ⟨(s.connections n).received ++ [c], (s.connections n).parsed⟩
        crashed := true }
  | recvError {t : CTCPServer B} {a c n : ℕ} {ctx : TcpClientCtx} (hctx : s.ctxs a = some ctx)
      (hconn : ctx.tcphandle = .reading n) (hparent : ctx.parentAcceptclient = some c)
      (hclose : s.closeClient c = some t) : Step s (.recvError a) t
  | clientClosed {t : CTCPServer B} {a c : ℕ} {ctx : TcpClientCtx} {client : AcceptClient}
      (hctx : s.ctxs a = some ctx) (hstage : ctx.tcphandle = .closing .client)
      (hdata : ctx.data = .acceptClient c) (hclient : s.clients c = some client)
      (hhandle : client.clientHandle = a)
      (hclose : subClientClosed { s.setCtx a { ctx with tcphandle := .closed } with
        clients := Function.update s.clients c (some { client with isClosed := true }) }
          client.clientId = some t) : Step s (.closed a) t
  | strangerClosed {a c : ℕ} {ctx : TcpClientCtx} {client : AcceptClient}
      (hctx : s.ctxs a = some ctx) (hstage : ctx.tcphandle = .closing .client)
      (hdata : ctx.data = .acceptClient c) (hclient : s.clients c = some client)
      (hhandle : client.clientHandle ≠ a) :
      Step s (.closed a) (s.setCtx a { ctx with tcphandle := .closed })
  | recycled {t : CTCPServer B} {a : ℕ} {ctx : TcpClientCtx} (hctx : s.ctxs a = some ctx)
      (hstage : ctx.tcphandle = .closing .recycle)
      (hrecycle : (s.setCtx a { ctx with tcphandle := .closed }).recycle a = some t) :
      Step s (.closed a) t
  | serverClosed {a : ℕ} {ctx : TcpClientCtx} (hctx : s.ctxs a = some ctx)
      (hstage : ctx.tcphandle = .closing .server) :
      Step s (.closed a) (s.setCtx a { ctx with tcphandle := .closed })
  | userClose : Step s .userClose { s with isUserAskForClosed := true }
  | closeinl {t : CTCPServer B} (hflag : s.isUserAskForClosed = true) (hclosed : s.isClosed = false)
      (hmutex : s.mutexClients = false)
      (hclose : s.mapClientsList.foldlM (fun s client => s.closeClient client.2)
        { s with mutexClients := true } = some t) :
      Step s .async { t with
        listening := false, ctxs := fun a => (t.ctxs a).map TcpClientCtx.closeWalk }

variable {s t : CTCPServer B} {e : Event B}

theorem accepts_of_acceptCtx {a : ℕ} {ctx : TcpClientCtx} {r : AcceptResults}
    (h : s.acceptCtx a ctx r = some t) : Accepts s a ctx t := by
  unfold acceptCtx newAcceptClient at h
  simp only at h
  split_ifs at h with hinit haccept hread hmutex hid
  · cases h
    exact .initFailed
  · cases h
    exact .acceptFailed
  · cases h
    exact .readFailed
  · cases h
    exact .accepted _ (Bool.eq_false_iff.2 hmutex) (.inl ⟨hid, rfl⟩)
  · cases h
    exact .accepted _ (Bool.eq_false_iff.2 hmutex) (.inr ⟨Bool.eq_false_iff.2 hid, rfl⟩)

theorem step_of_closed {a : ℕ} (h : s.closeCallback a = some t) : Step s (.closed a) t := by
  obtain ⟨ctx, hctx, h⟩ := Option.bind_eq_some_iff.1 h
  split at h
  · next c hstage hdata =>
    obtain ⟨client, hclient, h⟩ := Option.bind_eq_some_iff.1 h
    split_ifs at h with hhandle
    · exact .clientClosed hctx hstage hdata hclient hhandle h
    · cases h
      exact .strangerClosed hctx hstage hdata hclient hhandle
  · next hstage _ => exact .recycled hctx hstage h
  · next hstage =>
    cases h
    exact .serverClosed hctx hstage
  · cases h

theorem step_of_closeinl (hflag : s.isUserAskForClosed = true) (h : s.closeinl = some t) :
    Step s .async t := by
  unfold closeinl at h
  split_ifs at h with hclosed hmutex
  · cases h
    exact .same _
  · obtain ⟨s₁, h₁, h⟩ := Option.bind_eq_some_iff.1 h
    cases h
    exact .closeinl hflag (Bool.eq_false_iff.2 hclosed) (Bool.eq_false_iff.2 hmutex) h₁

/-- **What a step of the server can do.** -/
theorem step_cases (h : s.step e = some t) : Step s e t := by
  unfold step at h
  split_ifs at h
  cases e with
  | accept u r =>
    simp only [callback, Option.ite_none_right_eq_some] at h
    obtain ⟨hlistening, h⟩ := h
    unfold acceptConnection at h
    split_ifs at h
    · cases h
      exact .same _
    · obtain ⟨⟨s₁, a, ctx⟩, htake, h⟩ := Option.bind_eq_some_iff.1 h
      exact .accept hlistening htake (accepts_of_acceptCtx h)
  | recv a c =>
    simp only [callback, Option.ite_none_right_eq_some] at h
    obtain ⟨ctx, hctx, h⟩ := Option.bind_eq_some_iff.1 h.2
    split at h
    · next n hconn hdata =>
      simp only at h
      split at h
      · next p ds hcall =>
        cases h
        exact .received hctx hconn hcall
      · cases h
        exact .faulted hctx hconn
    · cases h
  | recvError a =>
    obtain ⟨ctx, hctx, h⟩ := Option.bind_eq_some_iff.1 h
    split at h
    · next n hconn hdata =>
      obtain ⟨c, hparent, h⟩ := Option.bind_eq_some_iff.1 h
      exact .recvError hctx hconn hparent h
    · cases h
  | closed a => exact step_of_closed h
  | userClose =>
    cases h
    unfold close
    split_ifs
    · exact .same _
    · exact .userClose
  | async =>
    simp only [callback, asyncCloseCb] at h
    split_ifs at h with hflag
    · exact step_of_closeinl hflag h
    · cases h
      exact .same _

end CTCPServer

end SimpleUv
