import SimpleUv.TcpServer.Control

/-!
# Who owns a context

Until the server is closed, every context is in one place. One whose handle reads, or waits for
`AcceptClient::AfterClientClose`, belongs to the accept client that its back pointer names; that client
is in the map under its own id, and every client in the map has such a context. The contexts in the list
are not in use (`Ownership.step`). The ids are different as long as their counter does not overflow.
-/

namespace SimpleUv

open Foundations

/-- Whether the handle belongs to an accept client. -/
def TcpHandle.inUse : TcpHandle → Bool
  | .reading _ | .closing .client => true
  | _ => false

/-- Whether the handle may be in the list. -/
def TcpHandle.pooled : TcpHandle → Bool
  | .closed | .init => true
  | _ => false

theorem TcpHandle.not_inUse_of_pooled {h : TcpHandle} (hp : h.pooled = true) : h.inUse = false := by
  cases h with
  | closed | init => rfl
  | reading n => cases hp
  | closing cb => cases hp

namespace CTCPServer

variable {B : Build} {s t : CTCPServer B} {e : Event B} {a b c : ℕ} {id : ℤ}
  {ctx ctx' : TcpClientCtx}

/-- The accept client has the context, and is in the map under its id. -/
def Owns (s : CTCPServer B) (c a : ℕ) (id : ℤ) : Prop :=
  s.clients c = some ⟨a, id, false⟩ ∧ (id, c) ∈ s.mapClientsList

/-- The invariant of contexts and accept clients. -/
structure Ownership (s : CTCPServer B) : Prop where
  owner : ∀ a ctx, s.ctxs a = some ctx → ctx.tcphandle.inUse = true →
    ∃ c id, ctx.parentAcceptclient = some c ∧ s.Owns c a id ∧
      (ctx.tcphandle = .closing .client → ctx.data = .acceptClient c)
  mapped : ∀ id c, (id, c) ∈ s.mapClientsList → ∃ a ctx, s.clients c = some ⟨a, id, false⟩ ∧
    s.ctxs a = some ctx ∧ ctx.tcphandle.inUse = true ∧ ctx.parentAcceptclient = some c
  available : ∀ a ∈ s.listAvaiTcpHandle, ∃ ctx, s.ctxs a = some ctx ∧ ctx.tcphandle.pooled = true
  nodup : s.listAvaiTcpHandle.Nodup
  ctx_lt : ∀ a ctx, s.ctxs a = some ctx → a < s.ctxEnd
  client_lt : ∀ c client, s.clients c = some client → c < s.clientEnd
  ids : (s.mapClientsList.map Prod.fst).Nodup
  id_le : ∀ entry ∈ s.mapClientsList, entry.1 ≤ s.clientIds
  clientIds_nonneg : 0 ≤ s.clientIds

/-- A context that is in no one's use, and not in the list. -/
structure Spare (s : CTCPServer B) (a : ℕ) : Prop where
  idle : ∀ ctx, s.ctxs a = some ctx → ctx.tcphandle.inUse = false
  unlisted : a ∉ s.listAvaiTcpHandle
  lt : a < s.ctxEnd

theorem ownership_start (B : Build) : (start B).Ownership where
  owner a ctx h := by cases h
  mapped id c h := by cases h
  available a h := by cases h
  nodup := List.nodup_nil
  ctx_lt a ctx h := by cases h
  client_lt c client h := by cases h
  ids := List.nodup_nil
  id_le entry h := by cases h
  clientIds_nonneg := le_rfl

@[simp] theorem setCtx_self : (s.setCtx a ctx).ctxs a = some ctx := Function.update_self a _ s.ctxs

theorem setCtx_of_ne (h : b ≠ a) : (s.setCtx a ctx).ctxs b = s.ctxs b :=
  Function.update_of_ne h _ s.ctxs

namespace Ownership

/-- An id names one accept client. -/
theorem id_inj (h : s.Ownership) (hb : (id, b) ∈ s.mapClientsList) (hc : (id, c) ∈ s.mapClientsList) :
    b = c :=
  congrArg Prod.snd (List.inj_on_of_nodup_map h.ids hb hc rfl)

theorem find_id (h : s.Ownership) (hc : (id, c) ∈ s.mapClientsList) :
    s.mapClientsList.find? (·.1 == id) = some (id, c) := by
  cases hfind : s.mapClientsList.find? (·.1 == id) with
  | none => exact absurd (beq_self_eq_true id) (List.find?_eq_none.1 hfind _ hc)
  | some entry =>
    obtain ⟨i, b⟩ := entry
    obtain rfl : i = id := eq_of_beq (List.find?_some hfind :)
    rw [h.id_inj hc (List.mem_of_find?_eq_some hfind)]

/-- A context in use is replaced by one in use. -/
theorem replace (h : s.Ownership) (hctx : s.ctxs a = some ctx) (huse : ctx.tcphandle.inUse = true)
    (huse' : ctx'.tcphandle.inUse = true) (hparent : ctx'.parentAcceptclient = ctx.parentAcceptclient)
    (hdata : ∀ c, ctx.parentAcceptclient = some c → ctx'.tcphandle = .closing .client →
      ctx'.data = .acceptClient c) : (s.setCtx a ctx').Ownership where
  owner b ctx₁ hb huse₁ := by
    by_cases hba : b = a
    · subst hba
      rw [setCtx_self] at hb
      cases hb
      obtain ⟨c, id, hc, howns, -⟩ := h.owner b ctx hctx huse
      exact ⟨c, id, hparent.trans hc, howns, hdata c hc⟩
    · rw [setCtx_of_ne hba] at hb
      exact h.owner b ctx₁ hb huse₁
  mapped id c hc := by
    obtain ⟨b, ctx₁, hclient, hb, huse₁, hparent₁⟩ := h.mapped id c hc
    by_cases hba : b = a
    · subst hba
      rw [hctx] at hb
      cases hb
      exact ⟨b, ctx', hclient, setCtx_self, huse', hparent.trans hparent₁⟩
    · exact ⟨b, ctx₁, hclient, (setCtx_of_ne hba).trans hb, huse₁, hparent₁⟩
  available b hb := by
    obtain ⟨ctx₁, hctx₁, hpooled⟩ := h.available b hb
    have hba : b ≠ a := by
      rintro rfl
      rw [hctx] at hctx₁
      cases hctx₁
      rw [TcpHandle.not_inUse_of_pooled hpooled] at huse
      cases huse
    exact ⟨ctx₁, (setCtx_of_ne hba).trans hctx₁, hpooled⟩
  nodup := h.nodup
  ctx_lt b ctx₁ hb := by
    by_cases hba : b = a
    · exact hba ▸ h.ctx_lt a ctx hctx
    · rw [setCtx_of_ne hba] at hb
      exact h.ctx_lt b ctx₁ hb
  client_lt := h.client_lt
  ids := h.ids
  id_le := h.id_le
  clientIds_nonneg := h.clientIds_nonneg

/-- A spare context is replaced by one that is in no one's use either. -/
theorem replaceSpare (h : s.Ownership) (ha : s.Spare a) (hidle : ctx'.tcphandle.inUse = false) :
    (s.setCtx a ctx').Ownership where
  owner b ctx₁ hb huse := by
    have hba : b ≠ a := by
      rintro rfl
      rw [setCtx_self] at hb
      cases hb
      rw [hidle] at huse
      cases huse
    rw [setCtx_of_ne hba] at hb
    exact h.owner b ctx₁ hb huse
  mapped id c hc := by
    obtain ⟨b, ctx₁, hclient, hb, huse, hparent⟩ := h.mapped id c hc
    have hba : b ≠ a := by
      rintro rfl
      rw [ha.idle ctx₁ hb] at huse
      cases huse
    exact ⟨b, ctx₁, hclient, (setCtx_of_ne hba).trans hb, huse, hparent⟩
  available b hb := by
    have hba : b ≠ a := by
      rintro rfl
      exact ha.unlisted hb
    obtain ⟨ctx₁, hctx₁, hpooled⟩ := h.available b hb
    exact ⟨ctx₁, (setCtx_of_ne hba).trans hctx₁, hpooled⟩
  nodup := h.nodup
  ctx_lt b ctx₁ hb := by
    by_cases hba : b = a
    · exact hba ▸ ha.lt
    · rw [setCtx_of_ne hba] at hb
      exact h.ctx_lt b ctx₁ hb
  client_lt := h.client_lt
  ids := h.ids
  id_le := h.id_le
  clientIds_nonneg := h.clientIds_nonneg

/-- A spare context goes to the back of the list. -/
theorem push (h : s.Ownership) (ha : s.Spare a) (hctx : s.ctxs a = some ctx)
    (hpooled : ctx.tcphandle.pooled = true) :
    Ownership { s with listAvaiTcpHandle := s.listAvaiTcpHandle ++ [a] } where
  owner := h.owner
  mapped := h.mapped
  available b hb := by
    rcases List.mem_append.1 hb with hb | hb
    · exact h.available b hb
    · rw [List.mem_singleton.1 hb]
      exact ⟨ctx, hctx, hpooled⟩
  nodup := List.nodup_append.2 ⟨h.nodup, List.nodup_singleton a, fun b hb c hc hbc => by
    rw [hbc, List.mem_singleton.1 hc] at hb
    exact ha.unlisted hb⟩
  ctx_lt := h.ctx_lt
  client_lt := h.client_lt
  ids := h.ids
  id_le := h.id_le
  clientIds_nonneg := h.clientIds_nonneg

/-- A spare context is freed. -/
theorem free (h : s.Ownership) (ha : s.Spare a) :
    Ownership { s with ctxs := Function.update s.ctxs a none } := by
  have hold : ∀ b ctx₁, Function.update s.ctxs a none b = some ctx₁ → s.ctxs b = some ctx₁ := by
    intro b ctx₁ hb
    by_cases hba : b = a
    · rw [hba, Function.update_self] at hb
      cases hb
    · rwa [Function.update_of_ne hba] at hb
  have hkeep : ∀ b ctx₁, b ≠ a → s.ctxs b = some ctx₁ →
      Function.update s.ctxs a none b = some ctx₁ := fun b ctx₁ hba hb => by
    rwa [Function.update_of_ne hba]
  refine ⟨fun b ctx₁ hb => h.owner b ctx₁ (hold b ctx₁ hb), fun id c hc => ?_, fun b hb => ?_,
    h.nodup, fun b ctx₁ hb => h.ctx_lt b ctx₁ (hold b ctx₁ hb), h.client_lt, h.ids, h.id_le,
    h.clientIds_nonneg⟩
  · obtain ⟨b, ctx₁, hclient, hb, huse, hparent⟩ := h.mapped id c hc
    refine ⟨b, ctx₁, hclient, hkeep b ctx₁ ?_ hb, huse, hparent⟩
    rintro rfl
    rw [ha.idle ctx₁ hb] at huse
    cases huse
  · obtain ⟨ctx₁, hctx₁, hpooled⟩ := h.available b hb
    refine ⟨ctx₁, hkeep b ctx₁ ?_ hctx₁, hpooled⟩
    rintro rfl
    exact ha.unlisted hb

end Ownership

/-- What becomes of a context that is recycled. -/
theorem recycle_cases (h : s.recycle a = some t) :
    t = { s with ctxs := Function.update s.ctxs a none } ∨
      s.listAvaiTcpHandle.length ≤ maxListSize ∧
        t = { s with listAvaiTcpHandle := s.listAvaiTcpHandle ++ [a] } := by
  obtain ⟨ctx, -, h⟩ := Option.bind_eq_some_iff.1 h
  split_ifs at h with hlong <;> cases h
  · exact .inl rfl
  · exact .inr ⟨not_lt.1 hlong, rfl⟩

namespace Ownership

theorem recycle (h : s.Ownership) (ha : s.Spare a) (hctx : s.ctxs a = some ctx)
    (hpooled : ctx.tcphandle.pooled = true) (hstep : s.recycle a = some t) : t.Ownership := by
  rcases recycle_cases hstep with rfl | ⟨-, rfl⟩
  · exact h.free ha
  · exact h.push ha hctx hpooled

/-- The accept client whose handle has closed leaves the map. -/
theorem remove (h : s.Ownership) (howns : s.Owns c a id) (hctx : s.ctxs a = some ctx)
    (hparent : ctx.parentAcceptclient = some c) (hidle : ctx'.tcphandle.inUse = false)
    (hlisted : a ∉ s.listAvaiTcpHandle) :
    Ownership { s.setCtx a ctx' with
      clients := Function.update s.clients c none
      mapClientsList := s.mapClientsList.filter (·.1 != id) } := by
  obtain ⟨hclient, hmem⟩ := howns
  have hfilter : ∀ entry ∈ s.mapClientsList.filter (·.1 != id), entry ∈ s.mapClientsList :=
    fun entry he => (List.mem_filter.1 he).1
  refine ⟨fun b ctx₁ hb huse => ?_, fun id₁ c₁ hmem₁ => ?_, fun b hb => ?_, h.nodup,
    fun b ctx₁ hb => ?_, fun c₁ client hc₁ => ?_,
    h.ids.sublist (List.filter_sublist.map _), fun entry he => h.id_le entry (hfilter entry he),
    h.clientIds_nonneg⟩
  · have hba : b ≠ a := by
      rintro rfl
      rw [setCtx_self] at hb
      cases hb
      rw [hidle] at huse
      cases huse
    rw [setCtx_of_ne hba] at hb
    obtain ⟨c₁, id₁, hparent₁, ⟨hclient₁, hmem₁⟩, hdata₁⟩ := h.owner b ctx₁ hb huse
    have hc : c₁ ≠ c := by
      rintro rfl
      rw [hclient] at hclient₁
      cases hclient₁
      exact hba rfl
    have hid : id₁ ≠ id := by
      rintro rfl
      exact hc (h.id_inj hmem₁ hmem)
    exact ⟨c₁, id₁, hparent₁, ⟨(Function.update_of_ne hc _ s.clients).trans hclient₁,
      List.mem_filter.2 ⟨hmem₁, bne_iff_ne.2 hid⟩⟩, hdata₁⟩
  · obtain ⟨hmem₁, hid⟩ := List.mem_filter.1 hmem₁
    obtain ⟨b, ctx₁, hclient₁, hb, huse, hparent₁⟩ := h.mapped id₁ c₁ hmem₁
    have hc : c₁ ≠ c := by
      rintro rfl
      rw [hclient] at hclient₁
      cases hclient₁
      exact bne_iff_ne.1 hid rfl
    have hba : b ≠ a := by
      rintro rfl
      rw [hctx] at hb
      cases hb
      exact hc (Option.some.inj (hparent₁.symm.trans hparent))
    exact ⟨b, ctx₁, (Function.update_of_ne hc _ s.clients).trans hclient₁,
      (setCtx_of_ne hba).trans hb, huse, hparent₁⟩
  · obtain ⟨ctx₁, hctx₁, hpooled⟩ := h.available b hb
    have hba : b ≠ a := by
      rintro rfl
      exact hlisted hb
    exact ⟨ctx₁, (setCtx_of_ne hba).trans hctx₁, hpooled⟩
  · by_cases hba : b = a
    · exact hba ▸ h.ctx_lt a ctx hctx
    · exact h.ctx_lt b ctx₁ ((setCtx_of_ne hba).symm.trans hb)
  · by_cases hc : c₁ = c
    · subst hc
      exact h.client_lt c₁ _ hclient
    · exact h.client_lt c₁ client ((Function.update_of_ne hc _ s.clients).symm.trans hc₁)

/-- A context whose handle is closing is not in the list. -/
theorem unlisted (h : s.Ownership) (hctx : s.ctxs a = some ctx)
    (hpooled : ctx.tcphandle.pooled = false) : a ∉ s.listAvaiTcpHandle := by
  intro ha
  obtain ⟨ctx₁, hctx₁, hpooled₁⟩ := h.available a ha
  rw [hctx] at hctx₁
  cases hctx₁
  rw [hpooled] at hpooled₁
  cases hpooled₁

end Ownership

/-! ## Accepting a connection -/

theorem takeCtx_cases {u : Uninit} (h : s.takeCtx u = some (t, a, ctx)) :
    s.listAvaiTcpHandle = [] ∧ t = { s with ctxEnd := s.ctxEnd + 1 } ∧ a = s.ctxEnd ∧
        ctx = ⟨.closed, .ctx, .construct u, none, none⟩ ∨
      ∃ rest ctx₀, s.listAvaiTcpHandle = a :: rest ∧ s.ctxs a = some ctx₀ ∧
        t = { s with listAvaiTcpHandle := rest } ∧ ctx = { ctx₀ with parentAcceptclient := none } := by
  unfold takeCtx at h
  split at h
  · next hlist =>
    cases h
    exact .inl ⟨hlist, rfl, rfl, rfl⟩
  · next a' rest hlist =>
    obtain ⟨ctx₀, hctx, h⟩ := Option.bind_eq_some_iff.1 h
    cases h
    exact .inr ⟨rest, ctx₀, hlist, hctx, rfl, rfl⟩

namespace Ownership

/-- The context that `AcceptConnection` takes is spare. -/
theorem takeCtx (h : s.Ownership) {u : Uninit} (htake : s.takeCtx u = some (t, a, ctx)) :
    t.Ownership ∧ t.Spare a ∧ ctx.tcphandle.pooled = true ∧ t.clientIds = s.clientIds := by
  rcases takeCtx_cases htake with ⟨-, rfl, rfl, rfl⟩ | ⟨rest, ctx₀, hlist, hctx, rfl, rfl⟩
  · have hfresh : ∀ ctx₁, s.ctxs s.ctxEnd ≠ some ctx₁ := fun ctx₁ hctx =>
      lt_irrefl _ (h.ctx_lt _ ctx₁ hctx)
    refine ⟨⟨h.owner, h.mapped, h.available, h.nodup, fun b ctx₁ hb =>
      (h.ctx_lt b ctx₁ hb).trans (Nat.lt_succ_self _), h.client_lt, h.ids, h.id_le,
      h.clientIds_nonneg⟩, ⟨fun ctx₁ hctx => absurd hctx (hfresh ctx₁), fun hmem => ?_,
      Nat.lt_succ_self _⟩, rfl, rfl⟩
    obtain ⟨ctx₁, hctx₁, -⟩ := h.available _ hmem
    exact hfresh ctx₁ hctx₁
  · have hnodup := h.nodup
    rw [hlist, List.nodup_cons] at hnodup
    obtain ⟨ctx₁, hctx₁, hpooled⟩ := h.available a (hlist ▸ List.mem_cons_self)
    rw [hctx] at hctx₁
    cases hctx₁
    refine ⟨⟨h.owner, h.mapped, fun b hb => h.available b (hlist ▸ List.mem_cons_of_mem a hb),
      hnodup.2, h.ctx_lt, h.client_lt, h.ids, h.id_le, h.clientIds_nonneg⟩,
      ⟨fun ctx₁ hctx₁ => ?_, hnodup.1, h.ctx_lt a ctx₀ hctx⟩, hpooled, rfl⟩
    replace hctx₁ : s.ctxs a = some ctx₁ := hctx₁
    rw [hctx] at hctx₁
    cases hctx₁
    exact TcpHandle.not_inUse_of_pooled hpooled

/-- The counters move on. -/
theorem setIds (h : s.Ownership) {n : ℤ} (hn : s.clientIds ≤ n) (m : ℕ) :
    Ownership { s with clientIds := n, connectionEnd := m } :=
  ⟨h.owner, h.mapped, h.available, h.nodup, h.ctx_lt, h.client_lt, h.ids,
    fun entry he => (h.id_le entry he).trans hn, h.clientIds_nonneg.trans hn⟩

/-- A new accept client. -/
theorem insert (h : s.Ownership) (ha : s.Spare a) (hn : s.clientIds < id) {n m : ℕ}
    (hstage : ctx'.tcphandle = .reading n) (hparent : ctx'.parentAcceptclient = some s.clientEnd) :
    Ownership { s with
      clientIds := id
      connectionEnd := m
      ctxs := Function.update s.ctxs a (some ctx')
      clients := Function.update s.clients s.clientEnd (some ⟨a, id, false⟩)
      clientEnd := s.clientEnd + 1
      mapClientsList := s.mapClientsList ++ [(id, s.clientEnd)] } := by
  have hfresh : ∀ c client, s.clients c = some client → c ≠ s.clientEnd := fun c client hc =>
    (h.client_lt c client hc).ne
  have hlt : ∀ entry ∈ s.mapClientsList, entry.1 < id := fun entry he =>
    (h.id_le entry he).trans_lt hn
  refine ⟨fun b ctx₁ hb huse => ?_, fun id₁ c₁ hmem₁ => ?_, fun b hb => ?_, h.nodup,
    fun b ctx₁ hb => ?_, fun c₁ client hc₁ => ?_, ?_, fun entry he => ?_,
    h.clientIds_nonneg.trans hn.le⟩
  · by_cases hba : b = a
    · subst hba
      replace hb : (s.setCtx b ctx').ctxs b = some ctx₁ := hb
      rw [setCtx_self] at hb
      cases hb
      refine ⟨s.clientEnd, id, hparent, ⟨Function.update_self _ _ s.clients,
        List.mem_append_right _ (List.mem_singleton_self _)⟩, fun hclosing => ?_⟩
      rw [hstage] at hclosing
      cases hclosing
    · replace hb : (s.setCtx a ctx').ctxs b = some ctx₁ := hb
      rw [setCtx_of_ne hba] at hb
      obtain ⟨c₁, id₁, hparent₁, ⟨hclient₁, hmem₁⟩, hdata₁⟩ := h.owner b ctx₁ hb huse
      exact ⟨c₁, id₁, hparent₁,
        ⟨(Function.update_of_ne (hfresh _ _ hclient₁) _ s.clients).trans hclient₁,
          List.mem_append_left _ hmem₁⟩, hdata₁⟩
  · rcases List.mem_append.1 hmem₁ with hmem₁ | hmem₁
    · obtain ⟨b, ctx₁, hclient₁, hb, huse, hparent₁⟩ := h.mapped id₁ c₁ hmem₁
      have hba : b ≠ a := by
        rintro rfl
        rw [ha.idle ctx₁ hb] at huse
        cases huse
      exact ⟨b, ctx₁, (Function.update_of_ne (hfresh _ _ hclient₁) _ s.clients).trans hclient₁,
        (setCtx_of_ne hba).trans hb, huse, hparent₁⟩
    · cases List.mem_singleton.1 hmem₁
      refine ⟨a, ctx', Function.update_self _ _ s.clients, setCtx_self, ?_, hparent⟩
      rw [hstage]
      rfl
  · have hba : b ≠ a := by
      rintro rfl
      exact ha.unlisted hb
    obtain ⟨ctx₁, hctx₁, hpooled⟩ := h.available b hb
    exact ⟨ctx₁, (setCtx_of_ne hba).trans hctx₁, hpooled⟩
  · by_cases hba : b = a
    · exact hba ▸ ha.lt
    · exact h.ctx_lt b ctx₁ ((setCtx_of_ne hba).symm.trans hb)
  · by_cases hc : c₁ = s.clientEnd
    · exact hc ▸ Nat.lt_succ_self _
    · exact (h.client_lt c₁ client ((Function.update_of_ne hc _ s.clients).symm.trans hc₁)).trans
        (Nat.lt_succ_self _)
  · rw [List.map_append, List.nodup_append]
    refine ⟨h.ids, List.nodup_singleton _, fun i hi j hj hij => ?_⟩
    obtain ⟨entry, he, rfl⟩ := List.mem_map.1 hi
    rw [List.map_cons, List.map_nil, List.mem_singleton] at hj
    exact (hlt entry he).ne (hij.trans hj)
  · rcases List.mem_append.1 he with he | he
    · exact (hlt entry he).le
    · rw [List.mem_singleton.1 he]

end Ownership

theorem Spare.setCtx (ha : s.Spare a) (hidle : ctx'.tcphandle.inUse = false) :
    (s.setCtx a ctx').Spare a where
  idle ctx₁ hctx₁ := by
    rw [setCtx_self] at hctx₁
    cases hctx₁
    exact hidle
  unlisted := ha.unlisted
  lt := ha.lt

namespace Ownership

theorem pushBack (h : s.Ownership) (ha : s.Spare a) (hpooled : ctx'.tcphandle.pooled = true) :
    (s.pushBack a ctx').Ownership := by
  have hidle := TcpHandle.not_inUse_of_pooled hpooled
  exact (h.replaceSpare ha hidle).push (ha.setCtx hidle) setCtx_self hpooled

/-- **A connection is accepted**, or one of the calls fails. -/
theorem accepts (h : s.Ownership) (ha : s.Spare a) (hpooled : ctx.tcphandle.pooled = true)
    (hids : s.clientIds < 2 ^ 31 - 1) (hstep : Accepts s a ctx t) : t.Ownership := by
  have hnonneg := h.clientIds_nonneg
  have hnext : toInt (s.clientIds + 1) = s.clientIds + 1 := toInt_eq (by omega) (by omega)
  have hmoved := fun m => h.setIds (n := s.clientIds + 1) (by omega) m
  have ha' : ∀ m, Spare { s with clientIds := s.clientIds + 1, connectionEnd := m } a :=
    fun m => ⟨ha.idle, ha.unlisted, ha.lt⟩
  cases hstep with
  | initFailed => exact h.pushBack ha hpooled
  | acceptFailed =>
    rw [hnext]
    exact (hmoved s.connectionEnd).pushBack (ha' s.connectionEnd) rfl
  | readFailed =>
    rw [hnext]
    refine (hmoved (s.connectionEnd + 1)).replaceSpare (ha' (s.connectionEnd + 1)) ?_
    rfl
  | accepted list hmutex hmap =>
    rw [hnext] at hmap ⊢
    rcases hmap with ⟨hany, -⟩ | ⟨-, rfl⟩
    · obtain ⟨entry, he, heq⟩ := List.any_eq_true.1 hany
      have hle := h.id_le entry he
      rw [eq_of_beq heq] at hle
      omega
    · refine h.insert (n := s.connectionEnd) ha (by omega) ?_ ?_ <;> rfl

/-- What a connection received, a fault and the wish to close. -/
theorem others (h : s.Ownership) (connections : ℕ → Connection B) (crashed flag : Bool) :
    Ownership { s with
      connections := connections, crashed := crashed, isUserAskForClosed := flag } :=
  ⟨h.owner, h.mapped, h.available, h.nodup, h.ctx_lt, h.client_lt, h.ids, h.id_le,
    h.clientIds_nonneg⟩

/-- A context that is being closed without an accept client is spare. -/
theorem spare (h : s.Ownership) (hctx : s.ctxs a = some ctx) (hidle : ctx.tcphandle.inUse = false)
    (hpooled : ctx.tcphandle.pooled = false) : s.Spare a where
  idle ctx₁ hctx₁ := by
    rw [hctx] at hctx₁
    cases hctx₁
    exact hidle
  unlisted := h.unlisted hctx hpooled
  lt := h.ctx_lt a ctx hctx

/-- A client whose handle reads is closed. -/
theorem closeClient_eq (h : s.Ownership) {n : ℕ} (hctx : s.ctxs a = some ctx)
    (hconn : ctx.tcphandle = .reading n) (hparent : ctx.parentAcceptclient = some c) :
    s.closeClient c =
      some (s.setCtx a { ctx with tcphandle := .closing .client, data := .acceptClient c }) := by
  obtain ⟨c₁, id, hparent₁, ⟨hclient, -⟩, -⟩ := h.owner a ctx hctx (by rw [hconn]; rfl)
  obtain rfl : c₁ = c := Option.some.inj (hparent₁.symm.trans hparent)
  simp only [CTCPServer.closeClient, hclient, hctx, TcpClientCtx.uvClose, hconn, Option.bind_eq_bind,
    Option.bind_some, Bool.false_eq_true, if_false]

theorem closeClient (h : s.Ownership) {n : ℕ} (hctx : s.ctxs a = some ctx)
    (hconn : ctx.tcphandle = .reading n) (hparent : ctx.parentAcceptclient = some c)
    (hstep : s.closeClient c = some t) : t.Ownership := by
  rw [h.closeClient_eq hctx hconn hparent] at hstep
  cases hstep
  refine h.replace hctx (by rw [hconn]; rfl) rfl rfl fun c₁ hc _ => ?_
  rw [Option.some.inj (hparent.symm.trans hc)]

/-- The client that waits for its close callback. -/
theorem owns_of_closing (h : s.Ownership) (hctx : s.ctxs a = some ctx)
    (hstage : ctx.tcphandle = .closing .client) (hdata : ctx.data = .acceptClient c) :
    ∃ id, s.Owns c a id ∧ ctx.parentAcceptclient = some c := by
  obtain ⟨c₁, id, hparent, howns, hdata₁⟩ := h.owner a ctx hctx (by rw [hstage]; rfl)
  obtain rfl : c₁ = c := HandleData.acceptClient.inj ((hdata₁ hstage).symm.trans hdata)
  exact ⟨id, howns, hparent⟩

/-- `SubClientClosed` takes the client out of the map and recycles its context. -/
theorem subClientClosed_eq (h : s.Ownership) (hmutex : s.mutexClients = false)
    (howns : s.Owns c a id) :
    subClientClosed { s.setCtx a ctx with
        clients := Function.update s.clients c (some ⟨a, id, true⟩) } id =
      CTCPServer.recycle { s.setCtx a ctx with
        clients := Function.update s.clients c none
        mapClientsList := s.mapClientsList.filter (·.1 != id) } a := by
  have hfind : (s.setCtx a ctx).mapClientsList.find? (·.1 == id) = some (id, c) :=
    h.find_id howns.2
  have hfree : (s.setCtx a ctx).mutexClients = false := hmutex
  by_cases hlong : maxListSize < s.listAvaiTcpHandle.length
  all_goals
    simp only [subClientClosed, hfree, Bool.false_eq_true, if_false, hfind, CTCPServer.recycle,
      setCtx_self, Function.update_self, Option.bind_eq_bind, Option.bind_some]
    simp only [CTCPServer.setCtx, hlong, if_true, if_false, Option.bind_some,
      Function.update_idem]

/-- The close callback of a client. -/
theorem clientClosed (h : s.Ownership) {client : AcceptClient} (hctx : s.ctxs a = some ctx)
    (hstage : ctx.tcphandle = .closing .client) (hdata : ctx.data = .acceptClient c)
    (hclient : s.clients c = some client)
    (hstep : subClientClosed { s.setCtx a { ctx with tcphandle := .closed } with
      clients := Function.update s.clients c (some { client with isClosed := true }) }
        client.clientId = some t) : t.Ownership := by
  obtain ⟨id, howns, hparent⟩ := h.owns_of_closing hctx hstage hdata
  obtain rfl := Option.some.inj (howns.1.symm.trans hclient)
  have hlisted : a ∉ s.listAvaiTcpHandle := h.unlisted hctx (by rw [hstage]; rfl)
  have hmutex : s.mutexClients = false := by
    unfold subClientClosed at hstep
    split_ifs at hstep with hmutex
    exact Bool.eq_false_iff.2 hmutex
  rw [h.subClientClosed_eq hmutex howns] at hstep
  refine (h.remove howns hctx hparent rfl hlisted).recycle
    ⟨fun ctx₁ hctx₁ => ?_, hlisted, h.ctx_lt a ctx hctx⟩ setCtx_self rfl hstep
  cases setCtx_self.symm.trans hctx₁
  rfl

/-- **Ownership is kept** until the server is closed, as long as the ids do not overflow. -/
theorem step (h : s.Ownership) (hids : ∀ u r, e = .accept u r → s.clientIds < 2 ^ 31 - 1)
    (hclose : e = .async → s.isUserAskForClosed = false) (hstep : s.step e = some t) :
    t.Ownership := by
  cases step_cases hstep with
  | same => exact h
  | accept hlistening htake haccept =>
    obtain ⟨h₁, ha, hpooled, hclientIds⟩ := h.takeCtx htake
    exact h₁.accepts ha hpooled (hclientIds ▸ hids _ _ rfl) haccept
  | @received a n c ctx p ds hctx hconn hcall =>
    have huse : ctx.tcphandle.inUse = true := by rw [hconn]; rfl
    have hset : (s.setCtx a { ctx with packet := p }).Ownership :=
      h.replace hctx huse huse rfl fun c _ hclosing => by
        rw [hconn] at hclosing
        cases hclosing
    exact hset.others _ s.crashed s.isUserAskForClosed
  | faulted => exact h.others _ true s.isUserAskForClosed
  | recvError hctx hconn hparent hclient => exact h.closeClient hctx hconn hparent hclient
  | clientClosed hctx hstage hdata hclient hhandle hclosed =>
    exact h.clientClosed hctx hstage hdata hclient hclosed
  | @strangerClosed a c ctx client hctx hstage hdata hclient hhandle =>
    obtain ⟨id, howns, -⟩ := h.owns_of_closing hctx hstage hdata
    obtain rfl := Option.some.inj (howns.1.symm.trans hclient)
    exact absurd rfl hhandle
  | @recycled t a ctx hctx hstage hrecycle =>
    have ha := h.spare hctx (by rw [hstage]; rfl) (by rw [hstage]; rfl)
    exact (h.replaceSpare ha rfl).recycle (ha.setCtx rfl) setCtx_self rfl hrecycle
  | @serverClosed a ctx hctx hstage =>
    exact h.replaceSpare (h.spare hctx (by rw [hstage]; rfl) (by rw [hstage]; rfl)) rfl
  | userClose => exact h.others s.connections s.crashed true
  | closeinl hflag =>
    rw [hclose rfl] at hflag
    cases hflag

end Ownership

end CTCPServer

end SimpleUv
