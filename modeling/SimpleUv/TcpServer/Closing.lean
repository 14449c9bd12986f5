import SimpleUv.TcpServer.Ownership

/-!
# Closing accepted handles

`AfterRecv` and `closeinl` close a client without asking whether its handle is closing already, since
`m_bIsClosed` is set in the close callback only. A client whose connection has ended is closed a second
time when `closeinl` runs before that callback (`doubleClose_of_closing`), and in no other case
(`closedOnce_of_settled`).
-/

namespace SimpleUv

open Foundations

/-- Whether `uv_close` accepts the handle. -/
def TcpHandle.isOpen : TcpHandle → Bool
  | .init | .reading _ => true
  | _ => false

theorem TcpClientCtx.uvClose_eq_none {ctx : TcpClientCtx} {cb : CloseCb} :
    ctx.uvClose cb = none ↔ ctx.tcphandle.isOpen = false := by
  cases hstage : ctx.tcphandle <;>
    simp only [TcpClientCtx.uvClose, TcpHandle.isOpen, hstage, reduceCtorEq, Bool.true_eq_false]

namespace CTCPServer

variable {B : Build} {s t : CTCPServer B} {e : Event B} {a c : ℕ}

/-- `AcceptClient::Close` calls `uv_close` on a handle that is closing or closed. -/
def CloseAsserts (s : CTCPServer B) (c : ℕ) : Prop :=
  ∃ client ctx, s.clients c = some client ∧ client.isClosed = false ∧
    s.ctxs client.clientHandle = some ctx ∧ ctx.uvClose .client = none

/-- The clients are closed one after the other. -/
def closeClients (s : CTCPServer B) (clients : List (ℤ × ℕ)) : Option (CTCPServer B) :=
  clients.foldlM (fun s client => s.closeClient client.2) s

/-- The destructor of the client that `SubClientClosed` deletes does so. -/
def DeleteAsserts (s : CTCPServer B) (clientid : ℤ) : Prop :=
  s.mutexClients = false ∧ ∃ entry client t, s.mapClientsList.find? (·.1 == clientid) = some entry ∧
    s.clients entry.2 = some client ∧ s.recycle client.clientHandle = some t ∧
    t.CloseAsserts entry.2

/-- A callback calls `uv_close` on a handle that is closing or closed: for the client whose connection
has ended, for one of the clients that `closeinl` closes, or for one that is deleted. -/
def DoubleClose (s : CTCPServer B) : Event B → Prop
  | .recvError a => ∃ ctx n c, s.ctxs a = some ctx ∧ ctx.tcphandle = .reading n ∧
      ctx.data = .ctx ∧ ctx.parentAcceptclient = some c ∧ s.CloseAsserts c
  | .async => s.isUserAskForClosed = true ∧ s.isClosed = false ∧ s.mutexClients = false ∧
      ∃ before client after t, s.mapClientsList = before ++ client :: after ∧
        closeClients { s with mutexClients := true } before = some t ∧ t.CloseAsserts client.2
  | .closed a => ∃ ctx c client, s.ctxs a = some ctx ∧ ctx.tcphandle = .closing .client ∧
      ctx.data = .acceptClient c ∧ s.clients c = some client ∧ client.clientHandle = a ∧
      DeleteAsserts { s.setCtx a { ctx with tcphandle := .closed } with
        clients := Function.update s.clients c (some { client with isClosed := true }) }
        client.clientId
  | _ => False

/-- When `closeinl` runs, no client waits for its close callback, and the ids do not overflow. -/
def Settled (s : CTCPServer B) : Event B → Prop
  | .accept _ _ => s.clientIds < 2 ^ 31 - 1
  | .async => s.isUserAskForClosed = true → s.isClosed = false → s.mutexClients = false →
      ∀ a ctx, s.ctxs a = some ctx → ctx.tcphandle ≠ .closing .client
  | _ => True

/-! ## The loop of `closeinl` -/

/-- An accept client that is not closed, with the stage of its handle. -/
def Has (s : CTCPServer B) (c : ℕ) (h : TcpHandle) : Prop :=
  ∃ a id ctx, s.clients c = some ⟨a, id, false⟩ ∧ s.ctxs a = some ctx ∧ ctx.tcphandle = h ∧
    ctx.parentAcceptclient = some c

theorem Has.closeAsserts_iff {h : TcpHandle} (hc : s.Has c h) :
    s.CloseAsserts c ↔ h.isOpen = false := by
  obtain ⟨a, id, ctx, hclient, hctx, rfl, -⟩ := hc
  constructor
  · rintro ⟨client, ctx₁, hclient₁, -, hctx₁, hclose⟩
    rw [hclient] at hclient₁
    cases hclient₁
    rw [hctx] at hctx₁
    cases hctx₁
    exact TcpClientCtx.uvClose_eq_none.1 hclose
  · exact fun h => ⟨_, ctx, hclient, rfl, hctx, TcpClientCtx.uvClose_eq_none.2 h⟩

/-- A client whose handle reads is closed. -/
theorem Has.closeClient {n : ℕ} (hc : s.Has c (.reading n)) : ∃ t, s.closeClient c = some t := by
  obtain ⟨a, id, ctx, hclient, hctx, hstage, -⟩ := hc
  refine ⟨s.setCtx a { ctx with tcphandle := .closing .client, data := .acceptClient c }, ?_⟩
  simp only [CTCPServer.closeClient, hclient, hctx, TcpClientCtx.uvClose, hstage, Option.bind_eq_bind,
    Option.bind_some, Bool.false_eq_true, if_false]

/-- The other clients keep their handles. -/
theorem Has.of_closeClient {h h' : TcpHandle} {b : ℕ} (hb : s.Has b h) (hc : s.Has c h') (hne : b ≠ c)
    (hstep : s.closeClient c = some t) : t.Has b h := by
  obtain ⟨a, id, ctx, hclient, hctx, hstage, hparent⟩ := hb
  obtain ⟨a', id', ctx', hclient', hctx', -, hparent'⟩ := hc
  have ha : a ≠ a' := by
    rintro rfl
    rw [hctx] at hctx'
    cases hctx'
    exact hne (Option.some.inj (hparent.symm.trans hparent'))
  simp only [CTCPServer.closeClient, hclient', hctx', Option.bind_eq_bind, Option.bind_some,
    Bool.false_eq_true, if_false] at hstep
  obtain ⟨ctx₁, -, hstep⟩ := Option.bind_eq_some_iff.1 hstep
  cases hstep
  exact ⟨a, id, ctx, hclient, (setCtx_of_ne ha).trans hctx, hstage, hparent⟩

/-- **The loop goes on** as long as it meets clients whose handles read. -/
theorem closeClients_of_reading {clients : List (ℤ × ℕ)}
    (hread : ∀ client ∈ clients, ∃ n, s.Has client.2 (.reading n))
    (hnodup : (clients.map Prod.snd).Nodup) :
    ∃ t, s.closeClients clients = some t ∧
      ∀ c h, c ∉ clients.map Prod.snd → s.Has c h → t.Has c h := by
  induction clients generalizing s with
  | nil => exact ⟨s, rfl, fun c h _ hc => hc⟩
  | cons client clients ih =>
    rw [List.map_cons, List.nodup_cons] at hnodup
    obtain ⟨n, hclient⟩ := hread client List.mem_cons_self
    obtain ⟨s₁, hs₁⟩ := hclient.closeClient
    have hrest : ∀ other ∈ clients, ∃ m, s₁.Has other.2 (.reading m) := by
      intro other hother
      obtain ⟨m, hm⟩ := hread other (List.mem_cons_of_mem _ hother)
      refine ⟨m, hm.of_closeClient hclient ?_ hs₁⟩
      intro heq
      exact hnodup.1 (heq ▸ List.mem_map_of_mem hother)
    obtain ⟨t, ht, hkeep⟩ := ih hrest hnodup.2
    refine ⟨t, ?_, fun c h hc hhas => ?_⟩
    · rw [closeClients, List.foldlM_cons, hs₁]
      exact ht
    · rw [List.map_cons, List.mem_cons, not_or] at hc
      exact hkeep c h hc.2 (hhas.of_closeClient hclient hc.1 hs₁)

/-! ## The invariant -/

namespace Ownership

/-- Every client in the map has a context. -/
theorem has (h : s.Ownership) {entry : ℤ × ℕ} (hentry : entry ∈ s.mapClientsList) :
    ∃ stage, stage.inUse = true ∧ s.Has entry.2 stage := by
  obtain ⟨a, ctx, hclient, hctx, huse, hparent⟩ := h.mapped entry.1 entry.2 hentry
  exact ⟨_, huse, a, entry.1, ctx, hclient, hctx, rfl, hparent⟩

theorem clients_nodup (h : s.Ownership) : (s.mapClientsList.map Prod.snd).Nodup := by
  refine (List.Nodup.of_map _ h.ids).map_on fun x hx y hy heq => ?_
  obtain ⟨a, ctx, hclient, -⟩ := h.mapped x.1 x.2 hx
  obtain ⟨a', ctx', hclient', -⟩ := h.mapped y.1 y.2 hy
  rw [heq, hclient'] at hclient
  exact Prod.ext (congrArg AcceptClient.clientId (Option.some.inj hclient)).symm heq

end Ownership

/-- After `closeinl` the mutex stays locked, and no handle reads. -/
structure Stopped (s : CTCPServer B) : Prop where
  mutexClients : s.mutexClients = true
  listening : s.listening = false
  quiet : ∀ a ctx, s.ctxs a = some ctx → ctx.tcphandle.isOpen = false

namespace Stopped

theorem setCtx (h : s.Stopped) (a : ℕ) {ctx : TcpClientCtx} (hopen : ctx.tcphandle.isOpen = false) :
    (s.setCtx a ctx).Stopped where
  mutexClients := h.mutexClients
  listening := h.listening
  quiet b ctx₁ hb := by
    by_cases hba : b = a
    · subst hba
      rw [setCtx_self] at hb
      cases hb
      exact hopen
    · rw [setCtx_of_ne hba] at hb
      exact h.quiet b ctx₁ hb

theorem recycle (h : s.Stopped) (hstep : s.recycle a = some t) : t.Stopped := by
  rcases recycle_cases hstep with rfl | ⟨-, rfl⟩
  · refine ⟨h.mutexClients, h.listening, fun b ctx hb => ?_⟩
    replace hb : Function.update s.ctxs a none b = some ctx := hb
    by_cases hba : b = a
    · rw [hba, Function.update_self] at hb
      cases hb
    · rw [Function.update_of_ne hba] at hb
      exact h.quiet b ctx hb
  · exact ⟨h.mutexClients, h.listening, h.quiet⟩

/-- **Nothing is closed any more**, and no client leaves the map. -/
theorem step (h : s.Stopped) (hstep : s.step e = some t) :
    t.Stopped ∧ t.mapClientsList = s.mapClientsList := by
  have hnone : ∀ a ctx n, s.ctxs a = some ctx → ctx.tcphandle ≠ .reading n := by
    intro a ctx n hctx hconn
    have hopen := h.quiet a ctx hctx
    rw [hconn] at hopen
    cases hopen
  cases step_cases hstep with
  | same => exact ⟨h, rfl⟩
  | accept hlistening =>
    rw [h.listening] at hlistening
    cases hlistening
  | received hctx hconn | faulted hctx hconn | recvError hctx hconn =>
    exact absurd hconn (hnone _ _ _ hctx)
  | clientClosed hctx hstage hdata hclient hhandle hclose =>
    unfold subClientClosed at hclose
    rw [if_pos (by exact h.mutexClients)] at hclose
    cases hclose
  | strangerClosed hctx | serverClosed hctx => exact ⟨h.setCtx _ rfl, rfl⟩
  | recycled hctx hstage hrecycle =>
    refine ⟨(h.setCtx _ rfl).recycle hrecycle, ?_⟩
    rcases recycle_cases hrecycle with rfl | ⟨-, rfl⟩ <;> rfl
  | userClose => exact ⟨⟨h.mutexClients, h.listening, h.quiet⟩, rfl⟩
  | closeinl hflag hclosed hmutex =>
    rw [h.mutexClients] at hmutex
    cases hmutex

theorem not_doubleClose (h : s.Stopped) : ¬ s.DoubleClose e := by
  intro hdouble
  cases e with
  | accept u r => exact hdouble
  | recv a c => exact hdouble
  | recvError a =>
    obtain ⟨ctx, n, c, hctx, hconn, -⟩ := hdouble
    have hopen := h.quiet a ctx hctx
    rw [hconn] at hopen
    cases hopen
  | closed a =>
    obtain ⟨ctx, c, client, -, -, -, -, -, hmutex, -⟩ := hdouble
    exact Bool.noConfusion (h.mutexClients.symm.trans hmutex)
  | userClose => exact hdouble
  | async =>
    obtain ⟨-, -, hmutex, -⟩ := hdouble
    exact Bool.noConfusion (h.mutexClients.symm.trans hmutex)

end Stopped

theorem closeClient_mutex (hstep : s.closeClient c = some t) :
    t.mutexClients = s.mutexClients ∧ t.listening = s.listening := by
  obtain ⟨client, -, hstep⟩ := Option.bind_eq_some_iff.1 hstep
  split_ifs at hstep
  · cases hstep
    exact ⟨rfl, rfl⟩
  · obtain ⟨ctx, -, hstep⟩ := Option.bind_eq_some_iff.1 hstep
    obtain ⟨ctx₁, -, hstep⟩ := Option.bind_eq_some_iff.1 hstep
    cases hstep
    exact ⟨rfl, rfl⟩

theorem closeClients_mutex {clients : List (ℤ × ℕ)} (hstep : s.closeClients clients = some t) :
    t.mutexClients = s.mutexClients := by
  induction clients generalizing s with
  | nil =>
    cases hstep
    rfl
  | cons client clients ih =>
    obtain ⟨s₁, hs₁, hstep⟩ := Option.bind_eq_some_iff.1 hstep
    exact (ih hstep).trans (closeClient_mutex hs₁).1

theorem isOpen_closeWalk (ctx : TcpClientCtx) : ctx.closeWalk.tcphandle.isOpen = false := by
  unfold TcpClientCtx.closeWalk
  cases hclose : ctx.uvClose .server with
  | none => exact TcpClientCtx.uvClose_eq_none.1 hclose
  | some ctx₁ =>
    unfold TcpClientCtx.uvClose at hclose
    split at hclose <;> cases hclose <;> rfl

/-- **`closeinl` stops the server**: what is open is closing when it returns. -/
theorem stopped_of_closeClients {clients : List (ℤ × ℕ)}
    (hstep : closeClients { s with mutexClients := true } clients = some t) :
    Stopped { t with
      listening := false, ctxs := fun a => (t.ctxs a).map TcpClientCtx.closeWalk } where
  mutexClients := closeClients_mutex hstep
  listening := rfl
  quiet a ctx hctx := by
    obtain ⟨ctx₁, -, rfl⟩ := Option.map_eq_some_iff.1 hctx
    exact isOpen_closeWalk ctx₁

/-- The server before and after `closeinl`. -/
def Phase (s : CTCPServer B) : Prop := s.Ownership ∨ s.Stopped

theorem Phase.step (h : s.Phase) (hok : s.Settled e) (hstep : s.step e = some t) : t.Phase := by
  rcases h with h | h
  · by_cases hclose : e = .async ∧ s.isUserAskForClosed = true
    · obtain ⟨rfl, -⟩ := hclose
      cases step_cases hstep with
      | same => exact .inl h
      | closeinl hflag hclosed hmutex hclose => exact .inr (stopped_of_closeClients hclose)
    · refine .inl (h.step ?_ ?_ hstep)
      · rintro u r rfl
        exact hok
      · rintro rfl
        exact Bool.eq_false_iff.2 fun hflag => hclose ⟨rfl, hflag⟩
  · exact .inr (h.step hstep).1

/-! ## Double closes -/

namespace Ownership

/-- A client whose connection has ended is closed for the first time. -/
theorem not_closeAsserts (h : s.Ownership) {ctx : TcpClientCtx} {n : ℕ} (hctx : s.ctxs a = some ctx)
    (hconn : ctx.tcphandle = .reading n) (hparent : ctx.parentAcceptclient = some c) :
    ¬ s.CloseAsserts c := by
  obtain ⟨c₁, id, hparent₁, ⟨hclient, -⟩, -⟩ := h.owner a ctx hctx (by rw [hconn]; rfl)
  obtain rfl : c₁ = c := Option.some.inj (hparent₁.symm.trans hparent)
  have hhas : s.Has c₁ (.reading n) := ⟨a, id, ctx, hclient, hctx, hconn, hparent⟩
  exact fun hasserts => Bool.noConfusion (hhas.closeAsserts_iff.1 hasserts)

/-- A client that is deleted is closed. -/
theorem not_deleteAsserts (h : s.Ownership) {ctx : TcpClientCtx} {client : AcceptClient}
    (hctx : s.ctxs a = some ctx) (hstage : ctx.tcphandle = .closing .client)
    (hdata : ctx.data = .acceptClient c) (hclient : s.clients c = some client) :
    ¬ DeleteAsserts { s.setCtx a { ctx with tcphandle := .closed } with
      clients := Function.update s.clients c (some { client with isClosed := true }) }
        client.clientId := by
  obtain ⟨id, ⟨hclient₁, hmem⟩, -⟩ := h.owns_of_closing hctx hstage hdata
  rw [hclient₁] at hclient
  cases hclient
  rintro ⟨-, entry, client, t, hfind, -, hrecycle, client', ctx', hclient', hopen, -⟩
  have hfind' : s.mapClientsList.find? (·.1 == id) = some entry := hfind
  rw [h.find_id hmem] at hfind'
  cases hfind'
  have hclients : t.clients = Function.update s.clients c (some ⟨a, id, true⟩) := by
    rcases recycle_cases hrecycle with rfl | ⟨-, rfl⟩ <;> rfl
  rw [hclients, Function.update_self] at hclient'
  cases hclient'
  cases hopen

/-- A client whose handle is not closing reads. -/
theorem reads (h : s.Ownership) {entry : ℤ × ℕ} (hentry : entry ∈ s.mapClientsList)
    (hstage : ¬ s.Has entry.2 (.closing .client)) : ∃ n, s.Has entry.2 (.reading n) := by
  obtain ⟨stage, huse, hhas⟩ := h.has hentry
  cases stage with
  | reading n => exact ⟨n, hhas⟩
  | closed | init => cases huse
  | closing cb =>
    cases cb with
    | client => exact absurd hhas hstage
    | recycle | server => cases huse

/-- The loop of `closeinl` reaches a client when those before it read. -/
theorem closeClients (h : s.Ownership) {before after : List (ℤ × ℕ)} {client : ℤ × ℕ}
    (hmap : s.mapClientsList = before ++ client :: after)
    (hread : ∀ other ∈ before, ∃ n, s.Has other.2 (.reading n)) {stage : TcpHandle}
    (hclient : s.Has client.2 stage) :
    ∃ t, closeClients { s with mutexClients := true } before = some t ∧ t.Has client.2 stage := by
  have hnodup := h.clients_nodup
  rw [hmap, List.map_append, List.map_cons, List.nodup_append] at hnodup
  obtain ⟨t, ht, hkeep⟩ := closeClients_of_reading (s := { s with mutexClients := true }) hread
    hnodup.1
  refine ⟨t, ht, hkeep _ _ ?_ hclient⟩
  exact fun hmem => hnodup.2.2 _ hmem _ List.mem_cons_self rfl

end Ownership

theorem Phase.not_doubleClose (h : s.Phase) (hok : s.Settled e) : ¬ s.DoubleClose e := by
  rcases h with h | h
  · intro hdouble
    cases e with
    | accept u r => exact hdouble
    | recv a c => exact hdouble
    | recvError a =>
      obtain ⟨ctx, n, c, hctx, hconn, -, hparent, hasserts⟩ := hdouble
      exact h.not_closeAsserts hctx hconn hparent hasserts
    | closed a =>
      obtain ⟨ctx, c, client, hctx, hstage, hdata, hclient, -, hdelete⟩ := hdouble
      exact h.not_deleteAsserts hctx hstage hdata hclient hdelete
    | userClose => exact hdouble
    | async =>
      obtain ⟨hflag, hclosed, hmutex, before, client, after, t, hmap, hbefore, hasserts⟩ := hdouble
      have hreads : ∀ other ∈ s.mapClientsList, ∃ n, s.Has other.2 (.reading n) :=
        fun other hother => h.reads hother fun ⟨a, id, ctx, _, hctx, hstage, _⟩ =>
          hok hflag hclosed hmutex a ctx hctx hstage
      obtain ⟨n, hclient⟩ := hreads client (by rw [hmap]; simp)
      obtain ⟨t', ht', hhas⟩ := h.closeClients hmap
        (fun other hother => hreads other (by rw [hmap]; exact List.mem_append_left _ hother)) hclient
      rw [hbefore] at ht'
      cases ht'
      exact Bool.noConfusion (hhas.closeAsserts_iff.1 hasserts)
  · exact h.not_doubleClose

/-- **`closeinl` closes a handle twice** when a client waits for its close callback. -/
theorem Ownership.doubleClose_of_closing (h : s.Ownership) (hflag : s.isUserAskForClosed = true)
    (hclosed : s.isClosed = false) (hmutex : s.mutexClients = false) {ctx : TcpClientCtx}
    (hctx : s.ctxs a = some ctx) (hstage : ctx.tcphandle = .closing .client) :
    s.DoubleClose .async := by
  classical
  obtain ⟨c, id, hparent, ⟨hclient, hmem⟩, -⟩ := h.owner a ctx hctx (by rw [hstage]; rfl)
  have hhas : s.Has c (.closing .client) := ⟨a, id, ctx, hclient, hctx, hstage, hparent⟩
  -- the first client that waits
  cases hfind : s.mapClientsList.find? fun entry => s.Has entry.2 (.closing .client) with
  | none => exact absurd hhas (by simpa using List.find?_eq_none.1 hfind _ hmem)
  | some first =>
    obtain ⟨hfirst, before, after, hmap, hbefore⟩ := List.find?_eq_some_iff_append.1 hfind
    obtain ⟨t, ht, hwaits⟩ := h.closeClients hmap (fun other hother => h.reads
      (by rw [hmap]; exact List.mem_append_left _ hother) (by simpa using hbefore other hother))
      (of_decide_eq_true hfirst)
    exact ⟨hflag, hclosed, hmutex, before, first, after, t, hmap, ht,
      hwaits.closeAsserts_iff.2 rfl⟩

/-- **Every accepted handle is closed at most once** in every run in which no client waits for its close
callback when `closeinl` runs. -/
theorem closedOnce_of_settled (B : Build) (es : List (Event B))
    (h : Throughout step Settled (start B) es) :
    Throughout step (fun s e => ¬ s.DoubleClose e) (start B) es :=
  h.imp (fun _ _ _ hs hok hstep => Phase.step hs hok hstep)
    (fun _ _ hs hok => Phase.not_doubleClose hs hok) (.inl (ownership_start B))

/-- A connection ends, and the server is closed when its close callback has run. -/
theorem closedOnce_settled : Throughout step (fun s e => ¬ s.DoubleClose e) (start zeroBuild)
    [.accept zeroUninit .ok, .recvError 0, .closed 0, .userClose, .async] := by
  refine closedOnce_of_settled _ _ (.cons rfl (show (0 : ℤ) < 2 ^ 31 - 1 by decide)
    (.cons rfl trivial (.cons rfl trivial
    (.cons rfl trivial ⟨fun _ _ _ a ctx hctx => ?_, fun _ _ => trivial⟩))))
  cases a with
  | zero =>
    cases hctx
    exact nofun
  | succ n => cases hctx

/-- A connection ends, and the server is closed before its close callback. -/
def closeTwice : List (Event zeroBuild) :=
  [.accept zeroUninit .ok, .recvError 0, .userClose, .async]

/-- The handle is closed a second time. -/
theorem closeTwice_doubleClose :
    ¬ Throughout step (fun s e => ¬ s.DoubleClose e) (start zeroBuild) closeTwice := by
  intro h
  exact (((h.2 _ rfl).2 _ rfl).2 _ rfl).1
    ⟨rfl, rfl, rfl, [], (1, 0), [], _, rfl, rfl, _, _, rfl, rfl, rfl, rfl⟩

end CTCPServer

end SimpleUv
