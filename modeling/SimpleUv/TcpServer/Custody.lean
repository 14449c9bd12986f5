import SimpleUv.TcpServer.Ownership
import Mathlib.Data.List.Count

/-!
# Every context is in one place

As long as the user does not close the server, a context that is allocated is in the list, or belongs to
one accept client in the map, or waits for `RecycleTcpHandle` (`ownedOnce`). `Custody` adds to
`Ownership` what is needed for that: no context is forgotten, every accept client is in the map, and the
list is short. The ids come from a counter of type `int`, so the number of connections that are given
one is bounded.
-/

namespace SimpleUv

open Foundations

namespace CTCPServer

variable {B : Build} {s t : CTCPServer B} {e : Event B} {a b c : ℕ} {id : ℤ} {ctx ctx' : TcpClientCtx}

/-- Where a context is. -/
inductive Place
  | available
  | client (c : ℕ)
  | recycling

/-- The context is in the list, in the hands of an accept client in the map, or waits for
`RecycleTcpHandle`. -/
def InPlace (s : CTCPServer B) (a : ℕ) (ctx : TcpClientCtx) : Place → Prop
  | .available => a ∈ s.listAvaiTcpHandle
  | .client c => ∃ id client, (id, c) ∈ s.mapClientsList ∧ s.clients c = some client ∧
      client.clientHandle = a
  | .recycling => ctx.tcphandle = .closing .recycle

/-- An event that libuv may report now. -/
def Due (s : CTCPServer B) : Event B → Prop
  | .accept _ _ => s.listening = true
  | .recv a c => (∃ ctx n, s.ctxs a = some ctx ∧ ctx.tcphandle = .reading n) ∧
      0 < c.bytes.length ∧ c.bytes.length ≤ bufferSize
  | .recvError a => ∃ ctx n, s.ctxs a = some ctx ∧ ctx.tcphandle = .reading n
  | .closed a => ∃ ctx cb, s.ctxs a = some ctx ∧ ctx.tcphandle = .closing cb
  | .userClose | .async => True

/-- Every context is in one place, once. What is in the list is allocated, the clients in the map have
contexts that agree with them, no client is missing from the map, and no callback that may run now uses
or frees what has been freed. -/
structure OwnedOnce (s : CTCPServer B) : Prop where
  place : ∀ a ctx, s.ctxs a = some ctx → ∃! p, s.InPlace a ctx p
  listOnce : s.listAvaiTcpHandle.Nodup
  mapOnce : (s.mapClientsList.map Prod.fst).Nodup
  allocated : ∀ a ∈ s.listAvaiTcpHandle, ∃ ctx, s.ctxs a = some ctx
  agree : ∀ id c, (id, c) ∈ s.mapClientsList → ∃ a ctx, s.clients c = some ⟨a, id, false⟩ ∧
    s.ctxs a = some ctx ∧ ctx.clientid = some id ∧ ctx.parentAcceptclient = some c
  inserted : ∀ c client, s.clients c = some client → (client.clientId, c) ∈ s.mapClientsList
  room : s.listAvaiTcpHandle.length ≤ maxListSize + 1
  completes : ∀ e, s.crashed = false → s.Due e → ∃ t, s.step e = some t

/-- `AcceptConnection` gives the connection an id. -/
def Event.takesId : Event B → Bool
  | .accept _ r => r.status = 0 ∧ r.tcpInit = 0
  | _ => false

/-! ## The invariant -/

/-- Where a context is, by the stage of its handle. -/
inductive Stage (s : CTCPServer B) (a : ℕ) (ctx : TcpClientCtx) : Prop
  | available (hpooled : ctx.tcphandle.pooled = true) (hmem : a ∈ s.listAvaiTcpHandle)
  | client {c : ℕ} {id : ℤ} (huse : ctx.tcphandle.inUse = true)
      (hdata : ∀ n, ctx.tcphandle = .reading n → ctx.data = .ctx)
      (hclient : s.clients c = some ⟨a, id, false⟩) (hparent : ctx.parentAcceptclient = some c)
      (hid : ctx.clientid = some id)
  | recycling (hstage : ctx.tcphandle = .closing .recycle) (hdata : ctx.data = .ctx)

/-- The invariant of a server that the user does not close. -/
structure Custody (s : CTCPServer B) : Prop where
  own : s.Ownership
  stage : ∀ a ctx, s.ctxs a = some ctx → s.Stage a ctx
  inserted : ∀ c client, s.clients c = some client → (client.clientId, c) ∈ s.mapClientsList
  room : s.listAvaiTcpHandle.length ≤ maxListSize + 1
  mutexClients : s.mutexClients = false
  notAsked : s.isUserAskForClosed = false

theorem custody_start (B : Build) : (start B).Custody where
  own := ownership_start B
  stage a ctx h := by cases h
  inserted c client h := by cases h
  room := Nat.zero_le _
  mutexClients := rfl
  notAsked := rfl

/-- A context stays where it is when the list and its own accept client do. -/
theorem Stage.mono (h : s.Stage a ctx) (hlist : a ∈ s.listAvaiTcpHandle → a ∈ t.listAvaiTcpHandle)
    (hclients : ∀ c id, s.clients c = some ⟨a, id, false⟩ → t.clients c = some ⟨a, id, false⟩) :
    t.Stage a ctx := by
  cases h with
  | available hpooled hmem => exact .available hpooled (hlist hmem)
  | client huse hdata hclient hparent hid =>
    exact .client huse hdata (hclients _ _ hclient) hparent hid
  | recycling hstage hdata => exact .recycling hstage hdata

namespace Custody

/-- The place of a context is that of its handle. -/
theorem existsUnique_place (h : s.Custody) (hctx : s.ctxs a = some ctx) :
    ∃! p, s.InPlace a ctx p := by
  have hlisted : ctx.tcphandle.pooled = false → a ∉ s.listAvaiTcpHandle := h.own.unlisted hctx
  have howner : ∀ c, s.InPlace a ctx (.client c) →
      ctx.tcphandle.inUse = true ∧ ctx.parentAcceptclient = some c := by
    rintro c ⟨id, client, hmem, hclient, rfl⟩
    obtain ⟨a', ctx', hclient', hctx', huse, hparent⟩ := h.own.mapped id c hmem
    rw [hclient] at hclient'
    cases hclient'
    rw [hctx] at hctx'
    cases hctx'
    exact ⟨huse, hparent⟩
  cases h.stage a ctx hctx with
  | available hpooled hmem =>
    refine ⟨.available, hmem, fun p hp => ?_⟩
    cases p with
    | available => rfl
    | client c =>
      rw [TcpHandle.not_inUse_of_pooled hpooled] at howner
      exact absurd (howner c hp).1 Bool.false_ne_true
    | recycling =>
      rw [show ctx.tcphandle = .closing .recycle from hp] at hpooled
      cases hpooled
  | @client c id huse hdata hclient hparent hid =>
    refine ⟨.client c, ⟨id, _, h.inserted c _ hclient, hclient, rfl⟩, fun p hp => ?_⟩
    cases p with
    | available =>
      obtain ⟨ctx', hctx', hpooled⟩ := h.own.available a hp
      rw [hctx] at hctx'
      cases hctx'
      rw [TcpHandle.not_inUse_of_pooled hpooled] at huse
      cases huse
    | client c' => rw [Option.some.inj (hparent.symm.trans (howner c' hp).2)]
    | recycling =>
      rw [show ctx.tcphandle = .closing .recycle from hp] at huse
      cases huse
  | recycling hstage hdata =>
    refine ⟨.recycling, hstage, fun p hp => ?_⟩
    cases p with
    | available => exact absurd hp (hlisted (by rw [hstage]; rfl))
    | client c =>
      have huse := (howner c hp).1
      rw [hstage] at huse
      cases huse
    | recycling => rfl

/-- The clients in the map agree with their contexts. -/
theorem agree (h : s.Custody) (hmem : (id, c) ∈ s.mapClientsList) :
    ∃ a ctx, s.clients c = some ⟨a, id, false⟩ ∧ s.ctxs a = some ctx ∧ ctx.clientid = some id ∧
      ctx.parentAcceptclient = some c := by
  obtain ⟨a, ctx, hclient, hctx, huse, hparent⟩ := h.own.mapped id c hmem
  refine ⟨a, ctx, hclient, hctx, ?_, hparent⟩
  cases h.stage a ctx hctx with
  | available hpooled =>
    rw [TcpHandle.not_inUse_of_pooled hpooled] at huse
    cases huse
  | client huse' hdata hclient' hparent' hid =>
    cases hparent.symm.trans hparent'
    cases hclient.symm.trans hclient'
    exact hid
  | recycling hstage =>
    rw [hstage] at huse
    cases huse

end Custody

/-! ## What keeps it -/

/-- The invariant, but for the place of one context. -/
structure CustodyBut (s : CTCPServer B) (a : ℕ) : Prop where
  stage : ∀ b ctx, b ≠ a → s.ctxs b = some ctx → s.Stage b ctx
  inserted : ∀ c client, s.clients c = some client → (client.clientId, c) ∈ s.mapClientsList
  room : s.listAvaiTcpHandle.length ≤ maxListSize + 1
  mutexClients : s.mutexClients = false
  notAsked : s.isUserAskForClosed = false

theorem Custody.but (h : s.Custody) (a : ℕ) : s.CustodyBut a :=
  ⟨fun b ctx _ => h.stage b ctx, h.inserted, h.room, h.mutexClients, h.notAsked⟩

namespace CustodyBut

theorem setCtx (h : s.CustodyBut a) (ctx : TcpClientCtx) : (s.setCtx a ctx).CustodyBut a :=
  ⟨fun b ctx₁ hba hb => (h.stage b ctx₁ hba ((setCtx_of_ne hba).symm.trans hb)).mono
      (fun hmem => hmem) fun _ _ hc => hc,
    h.inserted, h.room, h.mutexClients, h.notAsked⟩

/-- The context gets a place. -/
theorem custody (h : s.CustodyBut a) (hown : s.Ownership)
    (hstage : ∀ ctx, s.ctxs a = some ctx → s.Stage a ctx) : s.Custody := by
  refine ⟨hown, fun b ctx hb => ?_, h.inserted, h.room, h.mutexClients, h.notAsked⟩
  by_cases hba : b = a
  · exact hba ▸ hstage ctx (hba ▸ hb)
  · exact h.stage b ctx hba hb

/-- A context that no accept client has is recycled. -/
theorem recycle (h : s.CustodyBut a) (hpooled : ∀ ctx, s.ctxs a = some ctx →
    ctx.tcphandle.pooled = true) (hown : t.Ownership) (hstep : s.recycle a = some t) : t.Custody := by
  rcases recycle_cases hstep with rfl | ⟨hshort, rfl⟩
  · refine ⟨hown, forall_update (fun b ctx hne hb => ?_) ?_, h.inserted, h.room, h.mutexClients,
      h.notAsked⟩
    · exact (h.stage b ctx hne hb).mono (fun hmem => hmem) fun _ _ hc => hc
    · rintro ctx ⟨⟩
  · refine ⟨hown, fun b ctx hb => ?_, h.inserted, ?_, h.mutexClients, h.notAsked⟩
    · by_cases hba : b = a
      · subst hba
        exact .available (hpooled ctx hb) (List.mem_append_right _ (List.mem_singleton_self _))
      · exact (h.stage b ctx hba hb).mono (List.mem_append_left _) fun _ _ hc => hc
    · rw [List.length_append, List.length_singleton]
      exact Nat.succ_le_succ hshort

/-- A short list takes a context without asking. -/
theorem pushBack (h : s.CustodyBut a) (hshort : s.listAvaiTcpHandle.length ≤ maxListSize)
    (hpooled : ctx.tcphandle.pooled = true) (hown : (s.pushBack a ctx).Ownership) :
    (s.pushBack a ctx).Custody := by
  have hrecycle : (s.setCtx a ctx).recycle a = some (s.pushBack a ctx) := by
    have hlen : ¬ maxListSize < (s.setCtx a ctx).listAvaiTcpHandle.length := not_lt.2 hshort
    simp only [CTCPServer.recycle, setCtx_self, hlen, Option.bind_eq_bind, Option.bind_some,
      if_false]
    rfl
  refine (h.setCtx ctx).recycle (fun ctx₁ hctx₁ => ?_) hown hrecycle
  cases setCtx_self.symm.trans hctx₁
  exact hpooled

/-- The counters move on. -/
theorem setIds (h : s.CustodyBut a) (n : ℤ) (m : ℕ) :
    CustodyBut { s with clientIds := n, connectionEnd := m } a :=
  ⟨fun b ctx hba hb => (h.stage b ctx hba hb).mono (fun hmem => hmem) fun _ _ hc => hc, h.inserted,
    h.room, h.mutexClients, h.notAsked⟩

end CustodyBut

namespace Custody

/-- `AcceptConnection` takes a context out of its place, and leaves room in the list. -/
theorem takeCtx (h : s.Custody) {u : Uninit} (htake : s.takeCtx u = some (t, a, ctx)) :
    t.CustodyBut a ∧ t.listAvaiTcpHandle.length ≤ maxListSize := by
  rcases takeCtx_cases htake with ⟨hnil, rfl, rfl, rfl⟩ | ⟨rest, ctx₀, hlist, hctx, rfl, rfl⟩
  · refine ⟨⟨fun b ctx _ hb => (h.stage b ctx hb).mono (fun hmem => hmem) fun _ _ hc => hc,
      h.inserted, h.room, h.mutexClients, h.notAsked⟩, ?_⟩
    show s.listAvaiTcpHandle.length ≤ maxListSize
    rw [hnil]
    exact Nat.zero_le _
  · have hroom := h.room
    rw [hlist, List.length_cons, Nat.succ_le_succ_iff] at hroom
    refine ⟨⟨fun b ctx hba hb => (h.stage b ctx hb).mono (fun hmem => ?_) fun _ _ hc => hc,
      h.inserted, hroom.trans (Nat.le_succ _), h.mutexClients, h.notAsked⟩, hroom⟩
    rw [hlist] at hmem
    exact (List.mem_cons.1 hmem).resolve_left hba

end Custody

/-- A connection is accepted, or one of the calls fails. -/
theorem CustodyBut.accepts (h : s.CustodyBut a) (hshort : s.listAvaiTcpHandle.length ≤ maxListSize)
    (hids : ∀ entry ∈ s.mapClientsList, entry.1 < toInt (s.clientIds + 1))
    (hfresh : ∀ c client, s.clients c = some client → c < s.clientEnd)
    (hpooled : ctx.tcphandle.pooled = true) (hown : t.Ownership) (hstep : Accepts s a ctx t) :
    t.Custody := by
  cases hstep with
  | initFailed => exact h.pushBack hshort hpooled hown
  | acceptFailed => exact (h.setIds _ s.connectionEnd).pushBack hshort rfl hown
  | readFailed =>
    refine ((h.setIds _ _).setCtx _).custody hown fun ctx₁ hctx₁ => ?_
    cases setCtx_self.symm.trans hctx₁
    exact .recycling rfl rfl
  | accepted list hmutex hmap =>
    rcases hmap with ⟨hany, -⟩ | ⟨-, rfl⟩
    · obtain ⟨entry, he, heq⟩ := List.any_eq_true.1 hany
      exact absurd (eq_of_beq heq) (hids entry he).ne
    · refine ⟨hown, forall_update (fun b ctx₁ hba hb => ?_) ?_, forall_update (fun c client _ hc =>
        List.mem_append_left _ (h.inserted c client hc)) ?_, h.room, h.mutexClients, h.notAsked⟩
      · refine (h.stage b ctx₁ hba hb).mono (fun hmem => hmem) fun c id hc => ?_
        exact (Function.update_of_ne (hfresh c _ hc).ne _ s.clients).trans hc
      · rintro ctx₁ ⟨⟩
        exact .client rfl (fun _ _ => rfl) (Function.update_self _ _ s.clients) rfl rfl
      · rintro client ⟨⟩
        exact List.mem_append_right _ (List.mem_singleton_self _)

namespace Custody

/-- The close callback of a client. -/
theorem clientClosed (h : s.Custody) {client : AcceptClient} (hctx : s.ctxs a = some ctx)
    (hstage : ctx.tcphandle = .closing .client) (hdata : ctx.data = .acceptClient c)
    (hclient : s.clients c = some client) (hown : t.Ownership)
    (hstep : subClientClosed { s.setCtx a { ctx with tcphandle := .closed } with
      clients := Function.update s.clients c (some { client with isClosed := true }) }
        client.clientId = some t) : t.Custody := by
  obtain ⟨id, howns, -⟩ := h.own.owns_of_closing hctx hstage hdata
  obtain rfl := Option.some.inj (howns.1.symm.trans hclient)
  rw [h.own.subClientClosed_eq h.mutexClients howns] at hstep
  have hbut : CustodyBut { s.setCtx a { ctx with tcphandle := .closed } with
      clients := Function.update s.clients c none
      mapClientsList := s.mapClientsList.filter (·.1 != id) } a := by
    refine ⟨fun b ctx₁ hba hb => ?_, forall_update (fun c₁ client hne hc₁ => ?_) ?_, h.room,
      h.mutexClients, h.notAsked⟩
    · refine (h.stage b ctx₁ ((setCtx_of_ne hba).symm.trans hb)).mono (fun hmem => hmem)
        fun c₁ id₁ hc₁ => ?_
      refine (Function.update_of_ne ?_ _ s.clients).trans hc₁
      rintro rfl
      rw [howns.1] at hc₁
      cases hc₁
      exact hba rfl
    · refine List.mem_filter.2 ⟨h.inserted c₁ client hc₁, bne_iff_ne.2 fun heq => hne ?_⟩
      exact h.own.id_inj (heq ▸ h.inserted c₁ client hc₁) howns.2
    · rintro client ⟨⟩
  refine hbut.recycle (fun ctx₁ hctx₁ => ?_) hown hstep
  cases setCtx_self.symm.trans hctx₁
  rfl

/-- **Every step keeps the invariant**, as long as the ids do not overflow and the user does not close
the server. -/
theorem step (h : s.Custody) (hids : ∀ u r, e = .accept u r → s.clientIds < 2 ^ 31 - 1)
    (huser : e ≠ .userClose) (hstep : s.step e = some t) : t.Custody := by
  have hown := h.own.step hids (fun _ => h.notAsked) hstep
  cases step_cases hstep with
  | same => exact h
  | @accept s₁ t u r a ctx hlistening htake haccept =>
    obtain ⟨hbut, hshort⟩ := h.takeCtx htake
    obtain ⟨h₁, -, hpooled, hclientIds⟩ := h.own.takeCtx htake
    have hnext : toInt (s₁.clientIds + 1) = s₁.clientIds + 1 := by
      have := h₁.clientIds_nonneg
      have := hids u r rfl
      exact toInt_eq (by omega) (by omega)
    refine hbut.accepts hshort (fun entry he => ?_) h₁.client_lt hpooled hown haccept
    have := h₁.id_le entry he
    omega
  | @received a n c ctx p ds hctx hconn hcall =>
    have hset := (h.but a).setCtx { ctx with packet := p }
    refine (CustodyBut.custody (a := a) ⟨fun b ctx₁ hba hb => ?_, hset.inserted, hset.room,
      hset.mutexClients, hset.notAsked⟩ hown fun ctx₁ hctx₁ => ?_)
    · exact (hset.stage b ctx₁ hba hb).mono (fun hmem => hmem) fun _ _ hc => hc
    · cases setCtx_self.symm.trans hctx₁
      cases h.stage a ctx hctx with
      | available hpooled hmem => exact .available hpooled hmem
      | client huse hdata hclient hparent hid => exact .client huse hdata hclient hparent hid
      | recycling hstage hdata => exact .recycling hstage hdata
  | faulted => exact ⟨hown, fun a ctx hctx => (h.stage a ctx hctx).mono (fun hmem => hmem)
      fun _ _ hc => hc, h.inserted, h.room, h.mutexClients, h.notAsked⟩
  | @recvError t a c n ctx hctx hconn hparent hclose =>
    rw [h.own.closeClient_eq hctx hconn hparent] at hclose
    cases hclose
    refine ((h.but a).setCtx _).custody hown fun ctx₁ hctx₁ => ?_
    cases setCtx_self.symm.trans hctx₁
    cases h.stage a ctx hctx with
    | available hpooled =>
      rw [hconn] at hpooled
      cases hpooled
    | client huse hdata hclient hparent hid => exact .client rfl (by rintro n ⟨⟩) hclient hparent hid
    | recycling hstage =>
      rw [hconn] at hstage
      cases hstage
  | clientClosed hctx hstage hdata hclient hhandle hclose =>
    exact h.clientClosed hctx hstage hdata hclient hown hclose
  | strangerClosed hctx hstage hdata hclient hhandle =>
    obtain ⟨id, howns, -⟩ := h.own.owns_of_closing hctx hstage hdata
    obtain rfl := Option.some.inj (howns.1.symm.trans hclient)
    exact absurd rfl hhandle
  | @recycled t a ctx hctx hstage hrecycle =>
    refine ((h.but a).setCtx _).recycle (fun ctx₁ hctx₁ => ?_) hown hrecycle
    cases setCtx_self.symm.trans hctx₁
    rfl
  | @serverClosed a ctx hctx hstage =>
    cases h.stage a ctx hctx with
    | available hpooled =>
      rw [hstage] at hpooled
      cases hpooled
    | client huse =>
      rw [hstage] at huse
      cases huse
    | recycling hrecycle =>
      rw [hstage] at hrecycle
      cases hrecycle
  | userClose => exact absurd rfl huser
  | closeinl hflag =>
    rw [h.notAsked] at hflag
    cases hflag

/-- A connection that gets no id. -/
theorem idle (h : s.Custody) {u : Uninit} {r : AcceptResults}
    (hidle : (Event.accept (B := B) u r).takesId = false) (hstep : s.step (.accept u r) = some t) :
    t.Custody ∧ t.clientIds = s.clientIds := by
  obtain ⟨-, hstep⟩ := Option.ite_none_left_eq_some.1 hstep
  obtain ⟨-, hstep⟩ := Option.ite_none_right_eq_some.1 hstep
  unfold acceptConnection at hstep
  split_ifs at hstep with hstatus
  · cases hstep
    exact ⟨h, rfl⟩
  · obtain ⟨⟨s₁, a, ctx⟩, htake, hstep⟩ := Option.bind_eq_some_iff.1 hstep
    have hinit : r.tcpInit ≠ 0 := by
      intro hinit
      simp [Event.takesId, not_not.1 hstatus, hinit] at hidle
    simp only [acceptCtx, hinit, ne_eq, not_false_eq_true, if_true] at hstep
    cases hstep
    obtain ⟨hbut, hshort⟩ := h.takeCtx htake
    obtain ⟨hown, hspare, hpooled, hids⟩ := h.own.takeCtx htake
    exact ⟨hbut.pushBack hshort hpooled (hown.pushBack hspare hpooled), hids⟩

/-- The counter moves by one, and only when a connection gets an id. -/
theorem clientIds_le (h : s.Custody) (hids : e.takesId = true → s.clientIds < 2 ^ 31 - 1)
    (hstep : s.step e = some t) : t.clientIds ≤ s.clientIds + [e].countP Event.takesId := by
  rw [List.countP_singleton]
  by_cases hid : e.takesId = true
  · have hlt := hids hid
    rw [if_pos hid]
    cases step_cases hstep with
    | same => exact Int.le_add_one le_rfl
    | @accept s₁ _ _ _ _ _ hlistening htake haccept =>
      obtain ⟨h₁, -, -, heq⟩ := h.own.takeCtx htake
      have hnonneg := h₁.clientIds_nonneg
      have hnext : toInt (s₁.clientIds + 1) = s₁.clientIds + 1 := toInt_eq (by omega) (by omega)
      cases haccept with
      | initFailed => exact heq.trans_le (Int.le_add_one le_rfl)
      | acceptFailed | readFailed | accepted => exact (hnext.trans (congrArg (· + 1) heq)).le
    | _ => cases hid
  · rw [if_neg hid, Nat.cast_zero, add_zero]
    refine le_of_eq ?_
    cases step_cases hstep with
    | accept hlistening htake haccept => exact (h.idle (Bool.eq_false_iff.2 hid) hstep).2
    | recvError hctx hconn hparent hclose =>
      rw [h.own.closeClient_eq hctx hconn hparent] at hclose
      cases hclose
      rfl
    | clientClosed hctx hstage hdata hclient hhandle hclose =>
      obtain ⟨id, howns, -⟩ := h.own.owns_of_closing hctx hstage hdata
      obtain rfl := Option.some.inj (howns.1.symm.trans hclient)
      rw [h.own.subClientClosed_eq h.mutexClients howns] at hclose
      rcases recycle_cases hclose with rfl | ⟨-, rfl⟩ <;> rfl
    | recycled hctx hstage hrecycle =>
      rcases recycle_cases hrecycle with rfl | ⟨-, rfl⟩ <;> rfl
    | closeinl hflag =>
      rw [h.notAsked] at hflag
      cases hflag
    | _ => rfl

/-- A context whose handle reads is in the hands of its accept client. -/
theorem client_of_inUse (h : s.Custody) (hctx : s.ctxs a = some ctx)
    (huse : ctx.tcphandle.inUse = true) :
    (∀ n, ctx.tcphandle = .reading n → ctx.data = .ctx) ∧
      ∃ c id, s.Owns c a id ∧ ctx.parentAcceptclient = some c ∧
        (ctx.tcphandle = .closing .client → ctx.data = .acceptClient c) := by
  obtain ⟨c, id, hparent, howns, hdata⟩ := h.own.owner a ctx hctx huse
  refine ⟨fun n hn => ?_, c, id, howns, hparent, hdata⟩
  cases h.stage a ctx hctx with
  | available hpooled =>
    rw [hn] at hpooled
    cases hpooled
  | client _ hread => exact hread n hn
  | recycling hstage =>
    rw [hn] at hstage
    cases hstage

/-- A context at hand can be recycled. -/
theorem exists_recycle (hctx : s.ctxs a = some ctx) : ∃ t, s.recycle a = some t := by
  simp only [CTCPServer.recycle, hctx, Option.bind_eq_bind, Option.bind_some]
  split_ifs
  · exact ⟨_, rfl⟩
  · exact ⟨_, rfl⟩

/-- A close callback that is due runs to its end. -/
theorem completes_closed (h : s.Custody) {cb : CloseCb} (hctx : s.ctxs a = some ctx)
    (hstage : ctx.tcphandle = .closing cb) : ∃ t, s.closeCallback a = some t := by
  cases h.stage a ctx hctx with
  | available hpooled =>
    rw [hstage] at hpooled
    cases hpooled
  | client huse =>
    have hcb : cb = .client := by
      rw [hstage] at huse
      cases cb with
      | client => rfl
      | recycle | server => cases huse
    subst hcb
    obtain ⟨-, c, id, howns, -, hdata⟩ := h.client_of_inUse hctx huse
    obtain ⟨t, ht⟩ := exists_recycle (s := { s.setCtx a { ctx with tcphandle := .closed } with
      clients := Function.update s.clients c none
      mapClientsList := s.mapClientsList.filter (·.1 != id) }) (a := a) setCtx_self
    refine ⟨t, ?_⟩
    rw [← h.own.subClientClosed_eq h.mutexClients howns, hdata hstage] at ht
    simp only [closeCallback, hctx, hstage, hdata hstage, afterClientClose, CTCPServer.setCtx,
      howns.1, Option.bind_eq_bind, Option.bind_some, if_true]
    exact ht
  | recycling hrecycle hdata =>
    rw [hrecycle] at hstage
    cases hstage
    obtain ⟨t, ht⟩ := exists_recycle (s := s.setCtx a { ctx with tcphandle := .closed }) (a := a)
      setCtx_self
    rw [hdata] at ht
    refine ⟨t, ?_⟩
    simp only [closeCallback, hctx, hrecycle, hdata, Option.bind_eq_bind, Option.bind_some]
    exact ht

/-- A connection is accepted, or refused, without a fault. -/
theorem completes_accept (h : s.Custody) (u : Uninit) (r : AcceptResults) :
    ∃ t, s.acceptConnection u r = some t := by
  have hsome : ∃ next : CTCPServer B × ℕ × TcpClientCtx, s.takeCtx u = some next ∧
      next.1.mutexClients = false := by
    unfold CTCPServer.takeCtx
    cases hlist : s.listAvaiTcpHandle with
    | nil => exact ⟨_, rfl, h.mutexClients⟩
    | cons a rest =>
      obtain ⟨ctx, hctx, -⟩ := h.own.available a (hlist ▸ List.mem_cons_self)
      simp only [hctx, Option.bind_eq_bind, Option.bind_some]
      exact ⟨_, rfl, h.mutexClients⟩
  obtain ⟨⟨s₁, a, ctx⟩, htake, hmutex⟩ := hsome
  have hfree : s₁.mutexClients = false := hmutex
  simp only [acceptConnection, htake, Option.bind_eq_bind, Option.bind_some, acceptCtx,
    newAcceptClient, CTCPServer.setCtx, hfree, Bool.false_eq_true, if_false]
  split_ifs <;> exact ⟨_, rfl⟩

/-- **Every callback that is due runs to its end**: it does not use or free what has been freed. -/
theorem completes (h : s.Custody) (hcrashed : s.crashed = false) (hdue : s.Due e) :
    ∃ t, s.step e = some t := by
  have hstep : s.step e = s.callback e := by
    simp only [CTCPServer.step, hcrashed, Bool.false_eq_true, if_false]
  rw [hstep]
  cases e with
  | accept u r =>
    simp only [callback, show s.listening = true from hdue, if_true]
    exact h.completes_accept u r
  | recv a c =>
    obtain ⟨⟨ctx, n, hctx, hconn⟩, hlen⟩ := hdue
    have hdata := (h.client_of_inUse hctx (by rw [hconn]; rfl)).1 n hconn
    simp only [callback, hlen, and_self, if_true, afterRecv, hctx, hconn, hdata,
      Option.bind_eq_bind, Option.bind_some]
    split <;> exact ⟨_, rfl⟩
  | recvError a =>
    obtain ⟨ctx, n, hctx, hconn⟩ := hdue
    obtain ⟨hread, c, id, howns, hparent, -⟩ := h.client_of_inUse hctx (by rw [hconn]; rfl)
    simp only [callback, afterRecvError, hctx, hconn, hread n hconn, hparent, Option.bind_eq_bind,
      Option.bind_some]
    exact ⟨_, h.own.closeClient_eq hctx hconn hparent⟩
  | closed a =>
    obtain ⟨ctx, cb, hctx, hstage⟩ := hdue
    exact h.completes_closed hctx hstage
  | userClose => exact ⟨_, rfl⟩
  | async =>
    simp only [callback, asyncCloseCb, h.notAsked, Bool.false_eq_true, if_false]
    exact ⟨s, rfl⟩

theorem ownedOnce (h : s.Custody) : s.OwnedOnce where
  place _ _ := h.existsUnique_place
  listOnce := h.own.nodup
  mapOnce := h.own.ids
  allocated a ha := (h.own.available a ha).imp fun _ hctx => hctx.1
  agree _ _ := h.agree
  inserted := h.inserted
  room := h.room
  completes _ := h.completes

end Custody

/-- **Every context is in one place** in every state that is reached without the user closing the server
and with fewer than `2 ^ 31` connections given an id: as many as an `int` can count. -/
theorem ownedOnce_of_ids (B : Build) (es : List (Event B)) (huser : Event.userClose ∉ es)
    (hids : es.countP Event.takesId < 2 ^ 31) : Always step OwnedOnce (start B) es := by
  suffices hrun : ∀ (es : List (Event B)) (s : CTCPServer B), s.Custody → Event.userClose ∉ es →
      s.clientIds + es.countP Event.takesId < 2 ^ 31 → Always step OwnedOnce s es by
    refine hrun es (start B) (custody_start B) huser ?_
    have hzero : (start B).clientIds = 0 := rfl
    omega
  intro es
  induction es with
  | nil => exact fun s h _ _ => h.ownedOnce
  | cons e es ih =>
    intro s h huser hids
    obtain ⟨hne, huser⟩ := not_or.1 (List.mem_cons.not.1 huser)
    have hcount : (e :: es).countP Event.takesId =
        [e].countP Event.takesId + es.countP Event.takesId := by
      rw [← List.countP_append, List.singleton_append]
    have hlt : e.takesId = true → s.clientIds < 2 ^ 31 - 1 := by
      intro hid
      rw [List.countP_singleton, if_pos hid] at hcount
      omega
    refine ⟨h.ownedOnce, fun t ht => ih t ?_ huser ?_⟩
    · by_cases hid : e.takesId = true
      · exact h.step (fun _ _ _ => hlt hid) (Ne.symm hne) ht
      · cases e with
        | accept u r => exact (h.idle (Bool.eq_false_iff.2 hid) ht).1
        | _ => exact h.step (by rintro u r ⟨⟩) (Ne.symm hne) ht
    · have := h.clientIds_le hlt ht
      omega

/-- A connection comes and goes, one whose handle cannot be read from is recycled, and one that
`uv_accept` refuses leaves its context in the list. -/
theorem ownedOnce_refused : Always step OwnedOnce (start zeroBuild)
    [.accept zeroUninit .ok, .recvError 0, .closed 0, .accept zeroUninit ⟨0, 0, 0, -1⟩, .closed 0,
      .accept zeroUninit ⟨0, 0, -1, 0⟩] :=
  ownedOnce_of_ids _ _ (by simp) (by decide)

end CTCPServer

end SimpleUv
