import SimpleUv.TcpServer.Server
import SimpleUv.Foundations.Transition

/-!
# Sessions of the server

A context keeps its parser when it is recycled, and `AcceptConnection` only sets the callback and the
delimiters again. So the packets of a connection are those a fresh parser delivers on its bytes as
long as no recycled parser holds the beginning of a frame (`isolated_of_clean`); where one does, the
first frames of the new connection are swallowed (`cutFrame_not_isolated`).

All steps but `AcceptConnection` and the arrival of data leave the parsers alone (`Keeps`), and no step
moves a connection to another context (`moves_of_step`).
-/

namespace SimpleUv

open Foundations

/-- A context has the parser it had, and reads from no other connection. -/
structure TcpClientCtx.Keeps (ctx ctx' : TcpClientCtx) : Prop where
  packet : ctx'.packet = ctx.packet
  reading : ∀ n, ctx'.tcphandle = .reading n → ctx.tcphandle = .reading n

namespace TcpClientCtx.Keeps

variable {ctx ctx₁ ctx₂ : TcpClientCtx}

theorem refl (ctx : TcpClientCtx) : ctx.Keeps ctx := ⟨rfl, fun _ h => h⟩

theorem trans (h₁ : ctx.Keeps ctx₁) (h₂ : ctx₁.Keeps ctx₂) : ctx.Keeps ctx₂ :=
  ⟨h₂.packet.trans h₁.packet, fun n h => h₁.reading n (h₂.reading n h)⟩

theorem uvClose {cb : CloseCb} (h : ctx.uvClose cb = some ctx₁) : ctx.Keeps ctx₁ := by
  unfold TcpClientCtx.uvClose at h
  split at h <;> cases h <;> exact ⟨rfl, fun n h => by cases h⟩

theorem closeWalk (ctx : TcpClientCtx) : ctx.Keeps ctx.closeWalk := by
  unfold TcpClientCtx.closeWalk
  cases h : ctx.uvClose .server with
  | none => exact refl ctx
  | some ctx₁ => exact uvClose h

end TcpClientCtx.Keeps

namespace CTCPServer

variable {B : Build} {s t v : CTCPServer B}

/-- Every context was there before and keeps its parser, and nothing arrives. -/
structure Keeps (s t : CTCPServer B) : Prop where
  ctxs : ∀ a ctx', t.ctxs a = some ctx' → ∃ ctx, s.ctxs a = some ctx ∧ ctx.Keeps ctx'
  connections : t.connections = s.connections
  connectionEnd : t.connectionEnd = s.connectionEnd

namespace Keeps

/-- A change of other fields. -/
theorem of_eq (h₁ : t.ctxs = s.ctxs) (h₂ : t.connections = s.connections)
    (h₃ : t.connectionEnd = s.connectionEnd) : Keeps s t :=
  ⟨fun _ ctx h => ⟨ctx, h₁ ▸ h, .refl ctx⟩, h₂, h₃⟩

theorem refl (s : CTCPServer B) : Keeps s s := of_eq rfl rfl rfl

theorem trans (h₁ : Keeps s t) (h₂ : Keeps t v) : Keeps s v where
  ctxs a ctx₂ h := by
    obtain ⟨ctx₁, h', hk₂⟩ := h₂.ctxs a ctx₂ h
    obtain ⟨ctx, h'', hk₁⟩ := h₁.ctxs a ctx₁ h'
    exact ⟨ctx, h'', hk₁.trans hk₂⟩
  connections := h₂.connections.trans h₁.connections
  connectionEnd := h₂.connectionEnd.trans h₁.connectionEnd

theorem setCtx {a : ℕ} {ctx ctx' : TcpClientCtx} (h : s.ctxs a = some ctx) (hk : ctx.Keeps ctx') :
    Keeps s (s.setCtx a ctx') where
  ctxs := forall_update (fun _ ctx₁ _ hb => ⟨ctx₁, hb, .refl ctx₁⟩) fun _ hb => by
    cases hb
    exact ⟨ctx, h, hk⟩
  connections := rfl
  connectionEnd := rfl

theorem recycle {a : ℕ} (h : s.recycle a = some t) : Keeps s t := by
  obtain ⟨ctx, -, h⟩ := Option.bind_eq_some_iff.1 h
  split_ifs at h <;> cases h
  · refine ⟨forall_update (fun _ ctx' _ hb => ⟨ctx', hb, .refl ctx'⟩) fun _ hb => ?_, rfl, rfl⟩
    cases hb
  · exact of_eq rfl rfl rfl

theorem closeClient {c : ℕ} (h : s.closeClient c = some t) : Keeps s t := by
  obtain ⟨client, -, h⟩ := Option.bind_eq_some_iff.1 h
  split_ifs at h
  · cases h
    exact refl s
  · obtain ⟨ctx, hctx, h⟩ := Option.bind_eq_some_iff.1 h
    obtain ⟨ctx₁, hclose, h⟩ := Option.bind_eq_some_iff.1 h
    cases h
    have hk := TcpClientCtx.Keeps.uvClose hclose
    exact setCtx hctx ⟨hk.packet, hk.reading⟩

theorem subClientClosed {clientid : ℤ} (h : s.subClientClosed clientid = some t) : Keeps s t := by
  unfold CTCPServer.subClientClosed at h
  split_ifs at h
  split at h
  · cases h
    exact refl s
  · obtain ⟨client, -, h⟩ := Option.bind_eq_some_iff.1 h
    obtain ⟨s₁, hs₁, h⟩ := Option.bind_eq_some_iff.1 h
    split_ifs at h
    cases h
    exact (recycle hs₁).trans (of_eq rfl rfl rfl)

theorem afterClientClose {a c : ℕ} (h : s.afterClientClose a c = some t) : Keeps s t := by
  obtain ⟨client, -, h⟩ := Option.bind_eq_some_iff.1 h
  split_ifs at h
  · have hk := subClientClosed h
    exact ⟨hk.ctxs, hk.connections, hk.connectionEnd⟩
  · cases h
    exact refl s

theorem afterRecvError {a : ℕ} (h : s.afterRecvError a = some t) : Keeps s t := by
  obtain ⟨ctx, -, h⟩ := Option.bind_eq_some_iff.1 h
  split at h
  · obtain ⟨c, -, h⟩ := Option.bind_eq_some_iff.1 h
    exact closeClient h
  · cases h

theorem closeCallback {a : ℕ} (h : s.closeCallback a = some t) : Keeps s t := by
  obtain ⟨ctx, hctx, h⟩ := Option.bind_eq_some_iff.1 h
  have hk : Keeps s (s.setCtx a { ctx with tcphandle := .closed }) :=
    setCtx hctx ⟨rfl, fun n h => by cases h⟩
  split at h
  · exact hk.trans (afterClientClose h)
  · exact hk.trans (recycle h)
  · cases h
    exact hk
  · cases h

theorem foldlM_closeClient {clients : List (ℤ × ℕ)}
    (h : clients.foldlM (fun s client => CTCPServer.closeClient s client.2) s = some t) :
    Keeps s t := by
  induction clients generalizing s with
  | nil =>
    cases h
    exact refl _
  | cons client clients ih =>
    obtain ⟨s₁, h₁, h⟩ := Option.bind_eq_some_iff.1 h
    exact (closeClient h₁).trans (ih h)

theorem closeinl (h : s.closeinl = some t) : Keeps s t := by
  unfold CTCPServer.closeinl at h
  split_ifs at h
  · cases h
    exact refl s
  · obtain ⟨s₁, h₁, h⟩ := Option.bind_eq_some_iff.1 h
    cases h
    have hk : Keeps s s₁ := by
      have hk := foldlM_closeClient h₁
      exact ⟨hk.ctxs, hk.connections, hk.connectionEnd⟩
    refine hk.trans ⟨fun a ctx' hctx => ?_, rfl, rfl⟩
    obtain ⟨ctx, hs, rfl⟩ := Option.map_eq_some_iff.1 hctx
    exact ⟨ctx, hs, .closeWalk ctx⟩

end Keeps

/-! ## The two steps that touch a parser -/

/-- A parser after `SetPacketCB` and `Start`. -/
def started (p : CPacketSync) : CPacketSync :=
  p.setPacketCb.start serverPacketHead serverPacketTail

/-- The context `AcceptConnection` works on is new, or the one at the front of the list. -/
theorem takeCtx_spec {u : Uninit} {a : ℕ} {ctx : TcpClientCtx} (h : s.takeCtx u = some (t, a, ctx)) :
    Keeps s t ∧ (ctx.packet = .construct u ∧ ctx.tcphandle = .closed ∨
      ∃ rest ctx₀, s.listAvaiTcpHandle = a :: rest ∧ s.ctxs a = some ctx₀ ∧ ctx₀.Keeps ctx) := by
  unfold takeCtx at h
  split at h
  · cases h
    exact ⟨.of_eq rfl rfl rfl, .inl ⟨rfl, rfl⟩⟩
  · next a' rest hlist =>
    obtain ⟨ctx₀, hctx, h⟩ := Option.bind_eq_some_iff.1 h
    cases h
    exact ⟨.of_eq rfl rfl rfl, .inr ⟨rest, ctx₀, hlist, hctx, rfl, fun _ h => h⟩⟩

/-- `AcceptConnection` writes to one context. It leaves its parser alone, or starts it, in which case
the context reads from a new connection or from none. -/
theorem acceptCtx_spec {a : ℕ} {ctx : TcpClientCtx} {r : AcceptResults}
    (h : s.acceptCtx a ctx r = some t) :
    t.connections = s.connections ∧
      ∃ ctx', t.ctxs = Function.update s.ctxs a (some ctx') ∧
        (ctx.Keeps ctx' ∧ t.connectionEnd = s.connectionEnd ∨
          r.tcpInit = 0 ∧ r.accept = 0 ∧ ctx'.packet = started ctx.packet ∧
            t.connectionEnd = s.connectionEnd + 1 ∧
              ∀ n, ctx'.tcphandle = .reading n → n = s.connectionEnd) := by
  unfold acceptCtx at h
  simp only at h
  split_ifs at h with hinit haccept hread
  · cases h
    exact ⟨rfl, _, rfl, .inl ⟨.refl ctx, rfl⟩⟩
  · cases h
    exact ⟨rfl, _, rfl, .inl ⟨⟨rfl, fun n h => by cases h⟩, rfl⟩⟩
  · cases h
    exact ⟨rfl, _, rfl,
      .inr ⟨not_not.1 hinit, not_not.1 haccept, rfl, rfl, fun n h => by cases h⟩⟩
  · unfold newAcceptClient at h
    have hnew : ∀ n, TcpHandle.reading s.connectionEnd = .reading n → n = s.connectionEnd := by
      rintro n ⟨⟩
      rfl
    simp only at h
    split_ifs at h <;> cases h <;>
      exact ⟨rfl, _, rfl, .inr ⟨not_not.1 hinit, not_not.1 haccept, rfl, rfl, hnew⟩⟩

/-- Data arrives on the connection of a context and goes through its parser. -/
theorem afterRecv_eq {a n : ℕ} {c : Chunk B} {ctx : TcpClientCtx} {p : CPacketSync}
    {out : List Delivery} (hs : s.ctxs a = some ctx) (hn : ctx.tcphandle = .reading n)
    (hd : ctx.data = .ctx) (hcall : ctx.packet.recvdata B c.bytes = .done p out) :
    s.afterRecv a c = some { s.setCtx a { ctx with packet := p } with
      connections := Function.update s.connections n
        ⟨(s.connections n).received ++ [c],
          (s.connections n).parsed ++ out.map Delivery.packet⟩ } := by
  simp only [afterRecv, hs, hn, hd, hcall, Option.bind_eq_bind, Option.bind_some]

theorem afterRecv_inv {a : ℕ} {c : Chunk B} (h : s.afterRecv a c = some t) :
    ∃ ctx n, s.ctxs a = some ctx ∧ ctx.tcphandle = .reading n ∧ ctx.data = .ctx := by
  obtain ⟨ctx, hctx, h⟩ := Option.bind_eq_some_iff.1 h
  split at h
  · next n hn hd => exact ⟨ctx, n, hctx, hn, hd⟩
  · cases h

/-- At most one connection is opened, on one context, and no other changes its context. -/
def Moves (s t : CTCPServer B) : Prop :=
  s.connectionEnd ≤ t.connectionEnd ∧ ∃ a, ∀ b ctx n, t.ctxs b = some ctx →
    ctx.tcphandle = .reading n → (∃ ctx₀, s.ctxs b = some ctx₀ ∧ ctx₀.tcphandle = .reading n) ∨
      b = a ∧ n = s.connectionEnd ∧ n < t.connectionEnd

theorem Keeps.moves (h : Keeps s t) : Moves s t := by
  refine ⟨h.connectionEnd.ge, 0, fun b ctx n hb hn => .inl ?_⟩
  obtain ⟨ctx₀, hctx₀, hctx⟩ := h.ctxs b ctx hb
  exact ⟨ctx₀, hctx₀, hctx.reading n hn⟩

/-- A connection that is on a context stays there. -/
theorem Moves.stays (h : Moves s t) {a n : ℕ} (hn : n < s.connectionEnd)
    (hhome : ∀ b ctx, s.ctxs b = some ctx → ctx.tcphandle = .reading n → b = a) :
    ∀ b ctx, t.ctxs b = some ctx → ctx.tcphandle = .reading n → b = a := by
  obtain ⟨-, c, hreading⟩ := h
  intro b ctx hb hbn
  rcases hreading b ctx n hb hbn with ⟨ctx₀, hctx₀, hn₀⟩ | ⟨-, rfl, -⟩
  · exact hhome b ctx₀ hctx₀ hn₀
  · exact absurd hn (lt_irrefl _)

/-- **Connections keep their contexts** in every step. -/
theorem moves_of_step {e : Event B} (h : s.step e = some t) : Moves s t := by
  unfold step at h
  split_ifs at h
  cases e with
  | accept u r =>
    simp only [callback, Option.ite_none_right_eq_some] at h
    replace h := h.2
    unfold acceptConnection at h
    split_ifs at h
    · cases h
      exact (Keeps.refl s).moves
    obtain ⟨⟨s₁, a, ctx⟩, htake, h⟩ := Option.bind_eq_some_iff.1 h
    obtain ⟨hk₁, hctx⟩ := takeCtx_spec htake
    obtain ⟨-, ctx', hctxs, hend⟩ := acceptCtx_spec h
    have hle : s.connectionEnd ≤ t.connectionEnd := by
      rw [← hk₁.connectionEnd]
      rcases hend with ⟨-, hend⟩ | ⟨-, -, -, hend, -⟩ <;> omega
    refine ⟨hle, a, fun b ctx₁ n hb hn => ?_⟩
    rw [hctxs] at hb
    by_cases hba : b = a
    · subst hba
      rw [Function.update_self] at hb
      cases hb
      rcases hend with ⟨hkept, -⟩ | ⟨-, -, -, hend, hnew⟩
      · left
        have hreading := hkept.reading n hn
        rcases hctx with ⟨-, hclosed⟩ | ⟨rest, ctx₀, -, hctx₀, hkept₀⟩
        · rw [hclosed] at hreading
          cases hreading
        · exact ⟨ctx₀, hctx₀, hkept₀.reading n hreading⟩
      · right
        have hn' := hnew n hn
        rw [hk₁.connectionEnd] at hend hn'
        exact ⟨rfl, hn', by omega⟩
    · rw [Function.update_of_ne hba] at hb
      obtain ⟨ctx₀, hctx₀, hkept⟩ := hk₁.ctxs b ctx₁ hb
      exact .inl ⟨ctx₀, hctx₀, hkept.reading n hn⟩
  | recv a c =>
    simp only [callback, Option.ite_none_right_eq_some] at h
    replace h := h.2
    obtain ⟨ctx, m, hctx, hm, hd⟩ := afterRecv_inv h
    have hsame : t.connectionEnd = s.connectionEnd ∧ ∀ b ctx₁, t.ctxs b = some ctx₁ →
        ∃ ctx₀, s.ctxs b = some ctx₀ ∧ ctx₀.tcphandle = ctx₁.tcphandle := by
      simp only [afterRecv, hctx, hm, hd, Option.bind_eq_bind, Option.bind_some] at h
      split at h
      · cases h
        refine ⟨rfl, forall_update (fun b ctx₁ _ hb => ⟨ctx₁, hb, rfl⟩) ?_⟩
        rintro ctx₁ ⟨⟩
        exact ⟨ctx, hctx, hm⟩
      · cases h
        exact ⟨rfl, fun b ctx₁ hb => ⟨ctx₁, hb, rfl⟩⟩
    refine ⟨hsame.1.ge, a, fun b ctx₁ n hb hn => .inl ?_⟩
    obtain ⟨ctx₀, hctx₀, heq⟩ := hsame.2 b ctx₁ hb
    exact ⟨ctx₀, hctx₀, heq.trans hn⟩
  | recvError a => exact (Keeps.afterRecvError h).moves
  | closed a => exact (Keeps.closeCallback h).moves
  | userClose =>
    cases h
    unfold close
    split_ifs
    · exact (Keeps.refl s).moves
    · exact (Keeps.of_eq rfl rfl rfl).moves
  | async =>
    simp only [callback, asyncCloseCb] at h
    split_ifs at h
    · exact (Keeps.closeinl h).moves
    · cases h
      exact (Keeps.refl s).moves

/-! ## The invariant -/

/-- Every connection was given the packets a fresh parser delivers on its bytes. -/
def Isolated (s : CTCPServer B) : Prop :=
  ∀ n, FreshDelivers B (s.connections n).received (s.connections n).parsed

/-- A recycled context holds nothing that starts a frame when `uv_accept` succeeds on it, and what arrives
is in range. -/
def Clean (s : CTCPServer B) : Event B → Prop
  | .accept _ r => r.status = 0 → r.tcpInit = 0 → r.accept = 0 → ∀ a rest ctx,
      s.listAvaiTcpHandle = a :: rest → s.ctxs a = some ctx →
        ((reference B serverPacketHead serverPacketTail).run (ctx.packet.pending B)).2 = []
  | .recv a c => ∀ ctx n, s.ctxs a = some ctx → ctx.tcphandle = .reading n →
      InRange B (streamOf (s.connections n).received ++ c.bytes)
  | _ => True

/-- The parsers of all contexts can be started, and those of the connections have parsed them. -/
structure Sessions (s : CTCPServer B) : Prop where
  parser : ∀ a ctx, s.ctxs a = some ctx → ∃ xs out, Tracks B (started ctx.packet) xs out
  session : ∀ a ctx n, s.ctxs a = some ctx → ctx.tcphandle = .reading n →
    n < s.connectionEnd ∧
      Tracks B ctx.packet (streamOf (s.connections n).received) (s.connections n).parsed
  distinct : ∀ a ctx b ctx' n, s.ctxs a = some ctx → s.ctxs b = some ctx' →
    ctx.tcphandle = .reading n → ctx'.tcphandle = .reading n → a = b
  unused : ∀ n, s.connectionEnd ≤ n → s.connections n = ⟨[], []⟩
  inRange : ∀ n, InRange B (streamOf (s.connections n).received)
  parsed : ∀ n, (s.connections n).parsed = ((reference B serverPacketHead serverPacketTail).run
    (streamOf (s.connections n).received)).1

theorem Sessions.isolated (h : Sessions s) : Isolated s := fun n =>
  (freshDelivers_iff (h.inRange n) _).2 (h.parsed n)

theorem sessions_start (B : Build) : Sessions (start B) where
  parser a ctx h := by cases h
  session a ctx n h := by cases h
  distinct a ctx b ctx' n h := by cases h
  unused n _ := rfl
  inRange n := .nil B
  parsed n := rfl

/-- **Steps that leave the parsers alone.** -/
theorem Sessions.keeps (h : Sessions s) (hk : Keeps s t) : Sessions t where
  parser a ctx' ha := by
    obtain ⟨ctx, hs, hctx⟩ := hk.ctxs a ctx' ha
    rw [hctx.packet]
    exact h.parser a ctx hs
  session a ctx' n ha hn := by
    obtain ⟨ctx, hs, hctx⟩ := hk.ctxs a ctx' ha
    rw [hctx.packet, hk.connections, hk.connectionEnd]
    exact h.session a ctx n hs (hctx.reading n hn)
  distinct a ctx b ctx' n ha hb hna hnb := by
    obtain ⟨ctx₁, hsa, hka⟩ := hk.ctxs a ctx ha
    obtain ⟨ctx₂, hsb, hkb⟩ := hk.ctxs b ctx' hb
    exact h.distinct a ctx₁ b ctx₂ n hsa hsb (hka.reading n hna) (hkb.reading n hnb)
  unused n hn := by
    rw [hk.connections]
    exact h.unused n (hk.connectionEnd ▸ hn)
  inRange n := hk.connections ▸ h.inRange n
  parsed n := hk.connections ▸ h.parsed n

/-- A context that reads from no connection yet, or from a new one, is written. -/
theorem Sessions.install (h : Sessions s) {a : ℕ} {ctx : TcpClientCtx}
    (hctxs : t.ctxs = Function.update s.ctxs a (some ctx)) (hconn : t.connections = s.connections)
    (hend : s.connectionEnd ≤ t.connectionEnd)
    (hparser : ∃ xs out, Tracks B (started ctx.packet) xs out)
    (hsession : ∀ n, ctx.tcphandle = .reading n →
      n = s.connectionEnd ∧ n < t.connectionEnd ∧ Tracks B ctx.packet [] []) : Sessions t := by
  -- the number of the new connection is not that of an old one
  have hne : ∀ b ctx' n, s.ctxs b = some ctx' → ctx'.tcphandle = .reading n →
      ctx.tcphandle ≠ .reading n := by
    intro b ctx' n hb hn hn'
    obtain ⟨hlt, -⟩ := h.session b ctx' n hb hn
    exact hlt.ne (hsession n hn').1
  refine ⟨?_, fun b ctx' n hb hn => ?_, fun b ctx₁ c ctx₂ n hb hc hn hn' => ?_, fun n hn => ?_,
    fun n => hconn ▸ h.inRange n, fun n => hconn ▸ h.parsed n⟩
  · rw [hctxs]
    refine forall_update (fun b ctx' _ hb => h.parser b ctx' hb) ?_
    rintro _ ⟨⟩
    exact hparser
  · rw [hconn]
    rw [hctxs] at hb
    rcases update_eq_some.1 hb with ⟨rfl, ⟨⟩⟩ | ⟨-, hb⟩
    · obtain ⟨hn, hlt, htracks⟩ := hsession n hn
      rw [h.unused n hn.ge]
      exact ⟨hlt, htracks⟩
    · obtain ⟨hlt, htracks⟩ := h.session b ctx' n hb hn
      exact ⟨hlt.trans_le hend, htracks⟩
  · rw [hctxs, update_eq_some] at hb hc
    rcases hb with ⟨rfl, ⟨⟩⟩ | ⟨-, hb⟩ <;> rcases hc with ⟨rfl, ⟨⟩⟩ | ⟨-, hc⟩
    · rfl
    · exact absurd hn (hne c ctx₂ n hc hn')
    · exact absurd hn' (hne b ctx₁ n hb hn)
    · exact h.distinct b ctx₁ c ctx₂ n hb hc hn hn'
  · rw [hconn]
    exact h.unused n (hend.trans hn)

/-- **A connection is accepted.** -/
theorem Sessions.accept (h : Sessions s) {u : Uninit} {r : AcceptResults}
    (hclean : Clean s (.accept u r)) (hstep : s.acceptConnection u r = some t) : Sessions t := by
  unfold acceptConnection at hstep
  split_ifs at hstep with hstatus
  · cases hstep
    exact h
  obtain ⟨⟨s₁, a, ctx⟩, htake, hstep⟩ := Option.bind_eq_some_iff.1 hstep
  obtain ⟨hk, hctx⟩ := takeCtx_spec htake
  obtain ⟨hconn, ctx', hctxs, hcase⟩ := acceptCtx_spec hstep
  have h₁ := h.keeps hk
  replace hclean := hclean (not_not.1 hstatus)
  -- the parser of the context can be started, and on a new connection it holds nothing
  have hparser : ∃ xs out, Tracks B (started ctx.packet) xs out ∧
      (r.tcpInit = 0 → r.accept = 0 → Tracks B (started ctx.packet) [] []) := by
    rcases hctx with ⟨hp, -⟩ | ⟨rest, ctx₀, hlist, hs, hkeep⟩
    · rw [hp]
      exact ⟨[], [], .fresh B u, fun _ _ => .fresh B u⟩
    · obtain ⟨xs, out, htracks⟩ := h.parser a ctx₀ hs
      rw [hkeep.packet]
      exact ⟨xs, out, htracks, fun hi ha => htracks.restart (hclean hi ha a rest ctx₀ hlist hs)⟩
  obtain ⟨xs, out, htracks, hrestart⟩ := hparser
  rcases hcase with ⟨hkeep, hend⟩ | ⟨hi, ha, hp, hend, hread⟩
  · rcases hctx with ⟨-, hclosed⟩ | ⟨rest, ctx₀, -, hs, hkeep₀⟩
    · refine h₁.install hctxs hconn hend.ge ⟨xs, out, hkeep.packet ▸ htracks⟩ fun n hn => ?_
      have := hkeep.reading n hn
      rw [hclosed] at this
      cases this
    · refine h.keeps ⟨?_, hconn.trans hk.connections, hend.trans hk.connectionEnd⟩
      rw [hctxs]
      refine forall_update (fun b ctx₁ _ hb => hk.ctxs b ctx₁ hb) ?_
      rintro _ ⟨⟩
      exact ⟨ctx₀, hs, hkeep₀.trans hkeep⟩
  · refine h₁.install hctxs hconn (hend ▸ Nat.le_succ _) ⟨xs, out, ?_⟩ fun n hn => ?_
    · rw [hp, started, htracks.start_eq]
      exact htracks
    · have hn := hread n hn
      exact ⟨hn, by omega, hp ▸ hrestart hi ha⟩

/-- **Data arrives.** -/
theorem Sessions.recv (h : Sessions s) {a : ℕ} {c : Chunk B} (hclean : Clean s (.recv a c))
    (hstep : s.afterRecv a c = some t) : Sessions t := by
  obtain ⟨ctx, n, hs, hn, hd⟩ := afterRecv_inv hstep
  obtain ⟨hlt, htracks⟩ := h.session a ctx n hs hn
  obtain ⟨p, out, hcall, htracks'⟩ := htracks.recv c (hclean ctx n hs hn)
  rw [afterRecv_eq hs hn hd hcall, Option.some.injEq] at hstep
  have hctxs : t.ctxs = Function.update s.ctxs a (some { ctx with packet := p }) := by
    rw [← hstep]
    rfl
  have hconn : t.connections = Function.update s.connections n
      ⟨(s.connections n).received ++ [c], (s.connections n).parsed ++ out.map Delivery.packet⟩ := by
    rw [← hstep]
  have hend : t.connectionEnd = s.connectionEnd := by
    rw [← hstep]
    rfl
  have hstream : streamOf ((s.connections n).received ++ [c]) =
      streamOf (s.connections n).received ++ c.bytes := by
    rw [streamOf_append, streamOf_cons, streamOf_nil, List.append_nil]
  have hsame : ∀ b ctx', t.ctxs b = some ctx' → ∃ ctx₀, s.ctxs b = some ctx₀ ∧
      ctx₀.tcphandle = ctx'.tcphandle := by
    rw [hctxs]
    refine forall_update (fun b ctx' _ hb => ⟨ctx', hb, rfl⟩) ?_
    rintro _ ⟨⟩
    exact ⟨ctx, hs, rfl⟩
  refine ⟨?_, fun b ctx' m hb hm => ?_, fun b ctx₁ c' ctx₂ m hb hc hm hm' => ?_, fun m hm => ?_,
    fun m => ?_, fun m => ?_⟩
  · rw [hctxs]
    refine forall_update (fun b ctx' _ hb => h.parser b ctx' hb) ?_
    rintro _ ⟨⟩
    rw [started, htracks'.start_eq]
    exact ⟨_, _, htracks'⟩
  · rw [hctxs] at hb
    rcases update_eq_some.1 hb with ⟨rfl, ⟨⟩⟩ | ⟨hba, hb⟩
    · obtain rfl : n = m := TcpHandle.reading.inj (hn.symm.trans hm)
      rw [hconn, Function.update_self, hstream, hend]
      exact ⟨hlt, htracks'⟩
    · have hmn : m ≠ n := by
        rintro rfl
        exact hba (h.distinct b ctx' a ctx m hb hs hm hn)
      rw [hconn, Function.update_of_ne hmn, hend]
      exact h.session b ctx' m hb hm
  · obtain ⟨ctx₁', hb', he₁⟩ := hsame b ctx₁ hb
    obtain ⟨ctx₂', hc', he₂⟩ := hsame c' ctx₂ hc
    exact h.distinct b ctx₁' c' ctx₂' m hb' hc' (he₁.trans hm) (he₂.trans hm')
  · rw [hend] at hm
    rw [hconn, Function.update_of_ne (by omega)]
    exact h.unused m hm
  · rw [hconn]
    by_cases hmn : m = n
    · subst hmn
      rw [Function.update_self, hstream]
      exact htracks'.range
    · rw [Function.update_of_ne hmn]
      exact h.inRange m
  · rw [hconn]
    by_cases hmn : m = n
    · subst hmn
      rw [Function.update_self, hstream]
      exact htracks'.out_eq
    · rw [Function.update_of_ne hmn]
      exact h.parsed m

theorem Sessions.step (h : Sessions s) {e : Event B} (hclean : Clean s e) (hstep : s.step e = some t) :
    Sessions t := by
  unfold CTCPServer.step at hstep
  split_ifs at hstep
  cases e with
  | accept u r =>
    simp only [callback, Option.ite_none_right_eq_some] at hstep
    exact h.accept hclean hstep.2
  | recv a c =>
    simp only [callback, Option.ite_none_right_eq_some] at hstep
    exact h.recv hclean hstep.2
  | recvError a => exact h.keeps (.afterRecvError hstep)
  | closed a => exact h.keeps (.closeCallback hstep)
  | userClose =>
    cases hstep
    unfold close
    split_ifs
    · exact h
    · exact h.keeps (.of_eq rfl rfl rfl)
  | async =>
    simp only [callback, asyncCloseCb] at hstep
    split_ifs at hstep
    · exact h.keeps (.closeinl hstep)
    · cases hstep
      exact h

/-! ## Runs -/

/-- **The sessions of a server are isolated** in every run in which no recycled context holds the
beginning of a frame when a connection is accepted on it. -/
theorem isolated_of_clean (B : Build) (es : List (Event B)) (h : Along step Clean (start B) es) :
    Always step Isolated (start B) es :=
  (always_of_along (fun _ _ _ hs hclean hstep => Sessions.step hs hclean hstep) (sessions_start B)
    h).mono fun _ hs => hs.isolated

/-- The server with one connection. -/
def oneConnection : CTCPServer zeroBuild :=
  ((start zeroBuild).acceptConnection zeroUninit .ok).getD (start zeroBuild)

/-- The server after data has arrived on that connection. -/
def served (p : CPacketSync) (connections : ℕ → Connection zeroBuild) : CTCPServer zeroBuild :=
  { oneConnection.setCtx 0 ⟨.reading 0, .ctx, p, some 1, some 0⟩ with connections := connections }

/-- The connection ends, and its context is taken for the next one. -/
theorem exec_served (p : CPacketSync) (connections : ℕ → Connection zeroBuild) :
    ∃ t, exec step (served p connections) [.recvError 0, .closed 0, .accept zeroUninit .ok] =
      some t ∧ t.ctxs 0 = some ⟨.reading 1, .ctx, started p, some 2, some 1⟩ ∧
        t.connections = connections ∧ t.crashed = false := ⟨_, rfl, rfl, rfl, rfl⟩

/-- A connection ends, and the next one is accepted on its context. -/
def recycledRun (c d : Chunk zeroBuild) : List (Event zeroBuild) :=
  [.accept zeroUninit .ok, .recv 0 c, .recvError 0, .closed 0, .accept zeroUninit .ok, .recv 0 d]

/-- A whole frame. -/
def wholeFrame : Chunk zeroBuild := ⟨wires [CPacketSync.smallOutgoing], by decide⟩

theorem inRange_wholeFrame : InRange zeroBuild wholeFrame.bytes :=
  inRange_wires [CPacketSync.smallOutgoing]

theorem run_wholeFrame : (reference zeroBuild serverPacketHead serverPacketTail).run
    wholeFrame.bytes = ([CPacketSync.smallOutgoing.delivered], []) := by
  have hs := run_wires [CPacketSync.smallOutgoing] []
  rw [List.append_nil] at hs
  exact Decoder.run_eq_of_steps hs rfl

/-- After a whole frame the context can be recycled. -/
theorem isolated_recycled :
    Always step Isolated (start zeroBuild) (recycledRun wholeFrame wholeFrame) := by
  refine isolated_of_clean zeroBuild _ ?_
  obtain ⟨q, ds, hcall, htracks⟩ := (Tracks.fresh zeroBuild zeroUninit).recv wholeFrame
    inRange_wholeFrame
  have hrecv := afterRecv_eq (s := oneConnection) (a := 0) rfl rfl rfl hcall
  refine .cons rfl (fun _ _ _ a rest ctx hlist => by cases hlist) (.cons hrecv ?_ (.cons rfl trivial
    (.cons rfl trivial (.cons rfl ?_ ?_))))
  · rintro ctx n ⟨⟩ ⟨⟩
    exact inRange_wholeFrame
  · rintro - - - a rest ctx ⟨⟩ ⟨⟩
    exact htracks.rest_eq.trans (congrArg Prod.snd run_wholeFrame)
  · refine fun t ht => ⟨?_, trivial⟩
    rintro ctx n ⟨⟩ ⟨⟩
    exact inRange_wholeFrame

/-- A frame with 100 bytes of data. -/
def longOutgoing : Outgoing zeroBuild where
  packet := ⟨1, serverPacketHead, serverPacketTail, .replicate 16 0, 5, 100, 0⟩
  data := some (.replicate 100 0)
  packchar := .replicate _ 0
  header_eq := rfl
  tail_eq := rfl
  datalen_eq := rfl
  datalen_le := by decide

/-- The head byte and the header of that frame. -/
def cutFrame : Chunk zeroBuild := ⟨longOutgoing.wire.take 51, by decide⟩

/-- The header still waits for its data when a whole frame has followed. -/
theorem decide_cutFrame : (reference zeroBuild serverPacketHead serverPacketTail).decide
    (cutFrame.bytes ++ wholeFrame.bytes) = none := by decide

theorem datalen_cutFrame : (candidate zeroBuild serverPacketHead serverPacketTail
    (cutFrame.bytes ++ wholeFrame.bytes)).map NetPacket.datalen = some 100 := by decide

theorem inRange_cutFrame : InRange zeroBuild (cutFrame.bytes ++ wholeFrame.bytes) := by
  refine .of_decide_none ⟨fun c hc => ?_, fun c _ hd => ?_⟩ decide_cutFrame
  · have hlen := datalen_cutFrame
    rw [hc, Option.map_some, Option.some.injEq] at hlen
    omega
  · rw [decide_cutFrame] at hd
    cases hd

/-- A connection ends inside a frame, and the next one on its context loses its first frame. -/
theorem cutFrame_not_isolated :
    ¬ Always step Isolated (start zeroBuild) (recycledRun cutFrame wholeFrame) := by
  intro h
  obtain ⟨q, ds, hcall, htracks⟩ := (Tracks.fresh zeroBuild zeroUninit).recv cutFrame
    inRange_cutFrame.of_append
  obtain ⟨q', ds', hcall', htracks'⟩ := htracks.recv wholeFrame inRange_cutFrame
  -- the parser takes the second connection for the rest of the first
  have hnone : ds'.map Delivery.packet = [] := by
    have hout := htracks'.out_eq
    rw [List.nil_append, List.nil_append, Decoder.run_of_decide_none decide_cutFrame] at hout
    exact (List.append_eq_nil_iff.1 hout).2
  have hcall₂ : (started q).recvdata zeroBuild wholeFrame.bytes = .done q' ds' := by
    rw [started, htracks.start_eq]
    exact hcall'
  obtain ⟨t, ht, hctx, hconn, hcrashed⟩ := exec_served q
    (Function.update oneConnection.connections 0 ⟨[] ++ [cutFrame], [] ++ ds.map Delivery.packet⟩)
  have h₁ := (h.2 _ rfl).2 (served q _) (afterRecv_eq (s := oneConnection) (a := 0) rfl rfl rfl hcall)
  have h₂ : Always step Isolated t [.recv 0 wholeFrame] := Always.of_exec h₁ ht
  have hstep : t.step (.recv 0 wholeFrame) = t.afterRecv 0 wholeFrame := by
    unfold step
    rw [hcrashed]
    rfl
  have h₃ := (h₂.2 _ (hstep.trans (afterRecv_eq hctx rfl rfl hcall₂))).here 1
  have hunused : t.connections 1 = ⟨[], []⟩ := by
    rw [hconn]
    rfl
  simp only [Function.update_self, hunused, List.nil_append] at h₃
  have hout := (freshDelivers_iff inRange_wholeFrame _).1 h₃
  rw [streamOf_cons, streamOf_nil, List.append_nil, run_wholeFrame, hnone] at hout
  cases hout

end CTCPServer

end SimpleUv
