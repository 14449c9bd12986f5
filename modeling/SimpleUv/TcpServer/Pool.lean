import SimpleUv.TcpServer.Ownership

/-!
# Handles in the list

`AcceptConnection` initialises the handle of the context it takes from the list, so a context should be
in the list only while its handle is closed. All ways into the list but one see to that: `RecycleTcpHandle`
and `SubClientClosed` run when a handle has closed, and a handle that `uv_tcp_init` refused is as it was.
Where `uv_accept` fails, the handle is initialised and goes back as it is. So the handles in the list are
closed exactly in the runs in which `uv_accept` never fails (`dormant_iff`); no bound on the number of
connections is needed, and the user may close the server.
-/

namespace SimpleUv

open Foundations

namespace CTCPServer

variable {B : Build} {s t : CTCPServer B} {e : Event B} {a b c : ℕ} {ctx : TcpClientCtx}

/-- The contexts in the list are allocated, and their handles are not in the loop. -/
def Dormant (s : CTCPServer B) : Prop :=
  ∀ a ∈ s.listAvaiTcpHandle, ∃ ctx, s.ctxs a = some ctx ∧ ctx.tcphandle = .closed

/-- `uv_accept` does not fail on a handle that was just initialised. -/
def Event.Accepting : Event B → Prop
  | .accept _ r => r.status = 0 → r.tcpInit = 0 → r.accept = 0
  | _ => True

/-! ## The list -/

/-- The contexts in the list have closed handles, and each of them is there once. -/
structure Pooling (s : CTCPServer B) : Prop where
  dormant : s.Dormant
  nodup : s.listAvaiTcpHandle.Nodup
  ctx_lt : ∀ a ctx, s.ctxs a = some ctx → a < s.ctxEnd

namespace Pooling

/-- What is not closed is not in the list. -/
theorem unlisted (h : s.Pooling) (hctx : s.ctxs a = some ctx) (hopen : ctx.tcphandle ≠ .closed) :
    a ∉ s.listAvaiTcpHandle := by
  intro ha
  obtain ⟨ctx', hctx', hclosed⟩ := h.dormant a ha
  rw [hctx] at hctx'
  cases hctx'
  exact hopen hclosed

/-- A write to a context that is not in the list. -/
theorem setCtx (h : s.Pooling) (ha : a ∉ s.listAvaiTcpHandle) (hlt : a < s.ctxEnd)
    (ctx : TcpClientCtx) : (s.setCtx a ctx).Pooling where
  dormant b hb := by
    obtain ⟨ctx', hctx', hclosed⟩ := h.dormant b hb
    refine ⟨ctx', (setCtx_of_ne ?_).trans hctx', hclosed⟩
    rintro rfl
    exact ha hb
  nodup := h.nodup
  ctx_lt := forall_update (fun b ctx _ hb => h.ctx_lt b ctx hb) fun _ _ => hlt

/-- A closed handle goes to the back of the list. -/
theorem push (h : s.Pooling) (ha : a ∉ s.listAvaiTcpHandle) (hctx : s.ctxs a = some ctx)
    (hclosed : ctx.tcphandle = .closed) :
    Pooling { s with listAvaiTcpHandle := s.listAvaiTcpHandle ++ [a] } where
  dormant b hb := by
    rcases List.mem_append.1 hb with hb | hb
    · exact h.dormant b hb
    · rw [List.mem_singleton.1 hb]
      exact ⟨ctx, hctx, hclosed⟩
  nodup := by
    refine List.nodup_append.2 ⟨h.nodup, List.nodup_singleton a, fun b hb c hc hbc => ha ?_⟩
    rw [← List.mem_singleton.1 hc, ← hbc]
    exact hb
  ctx_lt := h.ctx_lt

/-- A context that is not in the list is freed. -/
theorem free (h : s.Pooling) (ha : a ∉ s.listAvaiTcpHandle) :
    Pooling { s with ctxs := Function.update s.ctxs a none } where
  dormant b hb := by
    obtain ⟨ctx', hctx', hclosed⟩ := h.dormant b hb
    refine ⟨ctx', (Function.update_of_ne ?_ _ s.ctxs).trans hctx', hclosed⟩
    rintro rfl
    exact ha hb
  nodup := h.nodup
  ctx_lt := forall_update (fun b ctx _ hb => h.ctx_lt b ctx hb) (by rintro ctx ⟨⟩)

theorem recycle (h : s.Pooling) (ha : a ∉ s.listAvaiTcpHandle) (hctx : s.ctxs a = some ctx)
    (hclosed : ctx.tcphandle = .closed) (hstep : s.recycle a = some t) : t.Pooling := by
  rcases recycle_cases hstep with rfl | ⟨-, rfl⟩
  · exact h.free ha
  · exact h.push ha hctx hclosed

theorem pushBack (h : s.Pooling) (ha : a ∉ s.listAvaiTcpHandle) (hlt : a < s.ctxEnd)
    (hclosed : ctx.tcphandle = .closed) : (s.pushBack a ctx).Pooling :=
  (h.setCtx ha hlt ctx).push ha setCtx_self hclosed

/-- Only the contexts and the list matter. -/
theorem congr (h : s.Pooling) (hctxs : t.ctxs = s.ctxs) (hend : t.ctxEnd = s.ctxEnd)
    (hlist : t.listAvaiTcpHandle = s.listAvaiTcpHandle) : t.Pooling where
  dormant a ha := by
    rw [hlist] at ha
    rw [hctxs]
    exact h.dormant a ha
  nodup := hlist ▸ h.nodup
  ctx_lt a ctx hctx := by
    rw [hctxs] at hctx
    rw [hend]
    exact h.ctx_lt a ctx hctx

/-- The context that `AcceptConnection` takes has a closed handle, and is not in the list any more. -/
theorem takeCtx (h : s.Pooling) {u : Uninit} (htake : s.takeCtx u = some (t, a, ctx)) :
    t.Pooling ∧ a ∉ t.listAvaiTcpHandle ∧ a < t.ctxEnd ∧ ctx.tcphandle = .closed := by
  rcases takeCtx_cases htake with ⟨hnil, rfl, rfl, rfl⟩ | ⟨rest, ctx₀, hlist, hctx, rfl, rfl⟩
  · refine ⟨⟨h.dormant, h.nodup, fun b ctx hb => (h.ctx_lt b ctx hb).trans (Nat.lt_succ_self _)⟩,
      ?_, Nat.lt_succ_self _, rfl⟩
    show s.ctxEnd ∉ s.listAvaiTcpHandle
    rw [hnil]
    exact List.not_mem_nil
  · have hnodup := h.nodup
    rw [hlist, List.nodup_cons] at hnodup
    obtain ⟨ctx₁, hctx₁, hclosed⟩ := h.dormant a (hlist ▸ List.mem_cons_self)
    rw [hctx] at hctx₁
    cases hctx₁
    exact ⟨⟨fun b hb => h.dormant b (hlist ▸ List.mem_cons_of_mem a hb), hnodup.2, h.ctx_lt⟩,
      hnodup.1, h.ctx_lt a ctx₀ hctx, hclosed⟩

/-- A client is closed: its handle was open, so its context is not in the list. -/
theorem closeClient (h : s.Pooling) (hstep : s.closeClient c = some t) : t.Pooling := by
  obtain ⟨client, hclient, hstep⟩ := Option.bind_eq_some_iff.1 hstep
  split_ifs at hstep
  · cases hstep
    exact h
  · obtain ⟨ctx, hctx, hstep⟩ := Option.bind_eq_some_iff.1 hstep
    obtain ⟨ctx₁, hclose, hstep⟩ := Option.bind_eq_some_iff.1 hstep
    cases hstep
    refine h.setCtx (h.unlisted hctx fun hclosed => ?_) (h.ctx_lt _ ctx hctx) _
    simp only [TcpClientCtx.uvClose, hclosed] at hclose
    cases hclose

/-- `closeinl` closes what is open. -/
theorem closeinl {clients : List (ℤ × ℕ)} (h : s.Pooling)
    (hstep : clients.foldlM (fun s client => CTCPServer.closeClient s client.2) s = some t) :
    Pooling { t with
      listening := false, ctxs := fun a => (t.ctxs a).map TcpClientCtx.closeWalk } := by
  have hclients : t.Pooling := by
    induction clients generalizing s with
    | nil =>
      cases hstep
      exact h
    | cons client clients ih =>
      obtain ⟨s₁, hs₁, hstep⟩ := Option.bind_eq_some_iff.1 hstep
      exact ih (h.closeClient hs₁) hstep
  refine ⟨fun a ha => ?_, hclients.nodup, fun a ctx hctx => ?_⟩
  · obtain ⟨ctx, hctx, hclosed⟩ := hclients.dormant a ha
    have hwalk : ctx.closeWalk = ctx := by
      simp only [TcpClientCtx.closeWalk, TcpClientCtx.uvClose, hclosed, Option.getD_none]
    exact ⟨ctx, Option.map_eq_some_iff.2 ⟨ctx, hctx, hwalk⟩, hclosed⟩
  · obtain ⟨ctx₁, hctx₁, -⟩ := Option.map_eq_some_iff.1 hctx
    exact hclients.ctx_lt a ctx₁ hctx₁

end Pooling

/-! ## The map -/

/-- The clients in the map are there under their own ids, and are not closed. -/
structure Mapping (s : CTCPServer B) : Prop where
  mapped : ∀ id c client, (id, c) ∈ s.mapClientsList → s.clients c = some client →
    client.clientId = id ∧ client.isClosed = false
  mapped_lt : ∀ id c, (id, c) ∈ s.mapClientsList → c < s.clientEnd

namespace Mapping

/-- Only the clients and the map matter. -/
theorem congr (h : s.Mapping) (hclients : t.clients = s.clients) (hend : t.clientEnd = s.clientEnd)
    (hmap : t.mapClientsList = s.mapClientsList) : t.Mapping :=
  ⟨fun id c client hmem hc => h.mapped id c client (hmap ▸ hmem) (hclients ▸ hc),
    fun id c hmem => hend ▸ h.mapped_lt id c (hmap ▸ hmem)⟩

/-- A new accept client, whose id may be in the map already. -/
theorem newAcceptClient (h : s.Mapping) {id : ℤ} (hstep : s.newAcceptClient a ctx id = some t) :
    t.Mapping := by
  have hold : ∀ id' c client, (id', c) ∈ s.mapClientsList →
      Function.update s.clients s.clientEnd (some ⟨a, id, false⟩) c = some client →
      client.clientId = id' ∧ client.isClosed = false := fun id' c client hmem hc => by
    rw [Function.update_of_ne (h.mapped_lt id' c hmem).ne] at hc
    exact h.mapped id' c client hmem hc
  have hlt : ∀ id' c, (id', c) ∈ s.mapClientsList → c < s.clientEnd + 1 := fun id' c hmem =>
    (h.mapped_lt id' c hmem).trans (Nat.lt_succ_self _)
  unfold CTCPServer.newAcceptClient at hstep
  simp only at hstep
  split_ifs at hstep <;> cases hstep
  · exact ⟨hold, hlt⟩
  · refine ⟨fun id' c client hmem hc => ?_, fun id' c hmem => ?_⟩
    · rcases List.mem_append.1 hmem with hmem | hmem
      · exact hold id' c client hmem hc
      · cases List.mem_singleton.1 hmem
        cases (Function.update_self s.clientEnd _ s.clients).symm.trans hc
        exact ⟨rfl, rfl⟩
    · rcases List.mem_append.1 hmem with hmem | hmem
      · exact hlt id' c hmem
      · cases List.mem_singleton.1 hmem
        exact Nat.lt_succ_self _

theorem closeClient (h : s.Mapping) (hstep : s.closeClient c = some t) : t.Mapping := by
  obtain ⟨client, hclient, hstep⟩ := Option.bind_eq_some_iff.1 hstep
  split_ifs at hstep
  · cases hstep
    exact h
  · obtain ⟨ctx, hctx, hstep⟩ := Option.bind_eq_some_iff.1 hstep
    obtain ⟨ctx₁, hclose, hstep⟩ := Option.bind_eq_some_iff.1 hstep
    cases hstep
    exact h.congr rfl rfl rfl

theorem closeinl {clients : List (ℤ × ℕ)} (h : s.Mapping)
    (hstep : clients.foldlM (fun s client => CTCPServer.closeClient s client.2) s = some t) :
    t.Mapping := by
  induction clients generalizing s with
  | nil =>
    cases hstep
    exact h
  | cons client clients ih =>
    obtain ⟨s₁, hs₁, hstep⟩ := Option.bind_eq_some_iff.1 hstep
    exact ih (h.closeClient hs₁) hstep

end Mapping

/-- **The client that leaves the map is the one whose handle has closed.** Any other client that had
the id would not be closed, and its destructor would wait for ever. -/
theorem Pooling.subClientClosed (h : s.Pooling) (hmap : s.Mapping) {client : AcceptClient}
    (hclient : s.clients c = some client) (hctx : s.ctxs client.clientHandle = some ctx)
    (hclosed : ctx.tcphandle = .closed) (hlisted : client.clientHandle ∉ s.listAvaiTcpHandle)
    (hstep : CTCPServer.subClientClosed { s with
      clients := Function.update s.clients c (some { client with isClosed := true }) }
        client.clientId = some t) : t.Pooling ∧ t.Mapping := by
  have hother : ∀ c' client', c' ≠ c →
      Function.update s.clients c (some { client with isClosed := true }) c' = some client' →
      s.clients c' = some client' := fun c' client' hne hc' => by
    rwa [Function.update_of_ne hne] at hc'
  unfold CTCPServer.subClientClosed at hstep
  split_ifs at hstep
  split at hstep
  · next hnone =>
    -- the client was not in the map
    cases hstep
    refine ⟨h.congr rfl rfl rfl, fun id c' client' hmem hc' => ?_, hmap.mapped_lt⟩
    refine hmap.mapped id c' client' hmem (hother c' client' ?_ hc')
    rintro rfl
    refine List.find?_eq_none.1 hnone _ hmem (beq_iff_eq.2 ?_)
    exact (hmap.mapped id c' client hmem hclient).1.symm
  · next i c' hsome =>
    obtain ⟨client', hclient', hstep⟩ := Option.bind_eq_some_iff.1 hstep
    obtain ⟨s₁, hrecycle, hstep⟩ := Option.bind_eq_some_iff.1 hstep
    split_ifs at hstep with hdone
    cases hstep
    have hmem : (i, c') ∈ s.mapClientsList := List.mem_of_find?_eq_some hsome
    obtain rfl : c' = c := by
      by_contra hne
      rw [(hmap.mapped i c' client' hmem (hother c' client' hne hclient')).2] at hdone
      cases hdone
    cases (Function.update_self c' _ s.clients).symm.trans hclient'
    have hset : Pooling { s with
        clients := Function.update s.clients c' (some { client with isClosed := true }) } :=
      h.congr rfl rfl rfl
    have hrecycled : s₁.Pooling := hset.recycle hlisted hctx hclosed hrecycle
    refine ⟨hrecycled.congr rfl rfl rfl, ?_⟩
    have hfields : s₁.clients = Function.update s.clients c' (some { client with isClosed := true }) ∧
        s₁.clientEnd = s.clientEnd ∧ s₁.mapClientsList = s.mapClientsList := by
      rcases recycle_cases hrecycle with rfl | ⟨-, rfl⟩ <;> exact ⟨rfl, rfl, rfl⟩
    obtain ⟨hclients, hend, hlist⟩ := hfields
    refine ⟨fun id c client₁ hmem₁ hc => ?_, fun id c hmem₁ => ?_⟩
    · have hold : (id, c) ∈ s.mapClientsList := hlist ▸ (List.mem_filter.1 hmem₁).1
      have hne : c ≠ c' := by
        rintro rfl
        cases (Function.update_self c none s₁.clients).symm.trans hc
      refine hmap.mapped id c client₁ hold (hother c client₁ hne ?_)
      rw [← hclients, ← hc]
      exact (Function.update_of_ne hne _ _).symm
    · rw [hend]
      exact hmap.mapped_lt id c (hlist ▸ (List.mem_filter.1 hmem₁).1)

/-! ## Runs -/

/-- The invariant: the list, and the map. -/
structure PoolInv (s : CTCPServer B) : Prop where
  pooling : s.Pooling
  mapping : s.Mapping

theorem poolInv_start (B : Build) : (start B).PoolInv where
  pooling :=
    { dormant := fun a h => by cases h
      nodup := List.nodup_nil
      ctx_lt := fun a ctx h => by cases h }
  mapping :=
    { mapped := fun id c client h => by cases h
      mapped_lt := fun id c h => by cases h }

namespace PoolInv

theorem newAcceptClient (h : s.PoolInv) (hlisted : a ∉ s.listAvaiTcpHandle) (hlt : a < s.ctxEnd)
    {id : ℤ} (hstep : s.newAcceptClient a ctx id = some t) : t.PoolInv := by
  refine ⟨?_, h.mapping.newAcceptClient hstep⟩
  unfold CTCPServer.newAcceptClient at hstep
  simp only at hstep
  split_ifs at hstep <;> cases hstep
  · exact (h.pooling.setCtx hlisted hlt _).congr rfl rfl rfl
  · exact (h.pooling.setCtx hlisted hlt _).congr rfl rfl rfl

/-- A connection is accepted, or fails before `uv_accept` or after it. -/
theorem accept (h : s.PoolInv) {u : Uninit} {r : AcceptResults}
    (hok : (Event.accept (B := B) u r).Accepting) (hstep : s.acceptConnection u r = some t) :
    t.PoolInv := by
  unfold acceptConnection at hstep
  split_ifs at hstep with hstatus
  · cases hstep
    exact h
  obtain ⟨⟨s₁, a, ctx⟩, htake, hstep⟩ := Option.bind_eq_some_iff.1 hstep
  obtain ⟨hpool, hlisted, hlt, hclosed⟩ := h.pooling.takeCtx htake
  have hmap : s₁.Mapping := by
    rcases takeCtx_cases htake with ⟨-, rfl, -⟩ | ⟨rest, ctx₀, -, -, rfl, -⟩ <;>
      exact h.mapping.congr rfl rfl rfl
  unfold acceptCtx at hstep
  simp only at hstep
  split_ifs at hstep with hinit haccept hread
  · cases hstep
    exact ⟨hpool.pushBack hlisted hlt hclosed, hmap.congr rfl rfl rfl⟩
  · exact absurd (hok (not_not.1 hstatus) (not_not.1 hinit)) haccept
  · cases hstep
    exact ⟨(hpool.setCtx hlisted hlt _).congr rfl rfl rfl, hmap.congr rfl rfl rfl⟩
  · have hmoved : PoolInv { s₁ with
        clientIds := toInt (s₁.clientIds + 1), connectionEnd := s₁.connectionEnd + 1 } :=
      ⟨hpool.congr rfl rfl rfl, hmap.congr rfl rfl rfl⟩
    exact hmoved.newAcceptClient hlisted hlt hstep

/-- **Every step keeps the invariant**, unless `uv_accept` fails. -/
theorem step (h : s.PoolInv) (hok : e.Accepting) (hstep : s.step e = some t) : t.PoolInv := by
  obtain ⟨hpool, hmap⟩ := h
  cases step_cases hstep with
  | same => exact ⟨hpool, hmap⟩
  | @accept s₁ t u r a ctx hlistening htake haccept =>
    obtain ⟨-, hstep⟩ := Option.ite_none_left_eq_some.1 hstep
    obtain ⟨-, hstep⟩ := Option.ite_none_right_eq_some.1 hstep
    exact accept ⟨hpool, hmap⟩ hok hstep
  | @received a n c ctx p ds hctx hconn hcall =>
    have hlisted := hpool.unlisted hctx (by rw [hconn]; rintro ⟨⟩)
    exact ⟨(hpool.setCtx hlisted (hpool.ctx_lt a ctx hctx) _).congr rfl rfl rfl,
      hmap.congr rfl rfl rfl⟩
  | faulted | userClose => exact ⟨hpool.congr rfl rfl rfl, hmap.congr rfl rfl rfl⟩
  | recvError hctx hconn hparent hclose => exact ⟨hpool.closeClient hclose, hmap.closeClient hclose⟩
  | @clientClosed t a c ctx client hctx hstage hdata hclient hhandle hclose =>
    have hlisted := hpool.unlisted hctx (by rw [hstage]; rintro ⟨⟩)
    subst hhandle
    obtain ⟨hpool', hmap'⟩ := (hpool.setCtx hlisted (hpool.ctx_lt _ ctx hctx) _).subClientClosed
      (hmap.congr rfl rfl rfl) hclient setCtx_self rfl hlisted hclose
    exact ⟨hpool', hmap'⟩
  | @strangerClosed a c ctx client hctx hstage | @serverClosed a ctx hctx hstage =>
    have hlisted := hpool.unlisted hctx (by rw [hstage]; rintro ⟨⟩)
    exact ⟨hpool.setCtx hlisted (hpool.ctx_lt _ ctx hctx) _, hmap.congr rfl rfl rfl⟩
  | @recycled t a ctx hctx hstage hrecycle =>
    have hlisted := hpool.unlisted hctx (by rw [hstage]; rintro ⟨⟩)
    refine ⟨(hpool.setCtx hlisted (hpool.ctx_lt _ ctx hctx) _).recycle hlisted setCtx_self rfl
      hrecycle, ?_⟩
    rcases recycle_cases hrecycle with rfl | ⟨-, rfl⟩ <;> exact hmap.congr rfl rfl rfl
  | closeinl hflag hclosed hmutex hclose =>
    have hpool' : Pooling { s with mutexClients := true } := hpool.congr rfl rfl rfl
    have hmap' : Mapping { s with mutexClients := true } := hmap.congr rfl rfl rfl
    exact ⟨hpool'.closeinl hclose, (hmap'.closeinl hclose).congr rfl rfl rfl⟩

end PoolInv

/-- When `uv_accept` fails, an initialised handle goes to the list. -/
theorem not_dormant_of_refused (hok : ¬ e.Accepting) (hstep : s.step e = some t) : ¬ t.Dormant := by
  cases e with
  | accept u r =>
    obtain ⟨-, hstep⟩ := Option.ite_none_left_eq_some.1 hstep
    obtain ⟨-, hstep⟩ := Option.ite_none_right_eq_some.1 hstep
    have hr : r.status = 0 ∧ r.tcpInit = 0 ∧ r.accept ≠ 0 := by
      simpa only [Event.Accepting, Classical.not_imp] using hok
    obtain ⟨hstatus, hinit, haccept⟩ := hr
    simp only [acceptConnection, hstatus, ne_eq, not_true, if_false] at hstep
    obtain ⟨⟨s₁, a, ctx⟩, htake, hstep⟩ := Option.bind_eq_some_iff.1 hstep
    simp only [acceptCtx, hinit, haccept, ne_eq, not_true, not_false_eq_true, if_true,
      if_false] at hstep
    cases hstep
    intro hdormant
    obtain ⟨ctx', hctx', hclosed⟩ := hdormant a (List.mem_append_right _ (List.mem_singleton_self a))
    cases (Function.update_self a _ s₁.ctxs).symm.trans hctx'
    cases hclosed
  | _ => exact absurd trivial hok

/-- **The handles in the list are closed** in every state that a schedule reaches, exactly when
`uv_accept` does not fail in any event of it that happens. -/
theorem dormant_iff (B : Build) (es : List (Event B)) :
    Always step Dormant (start B) es ↔ Along step (fun _ e => e.Accepting) (start B) es :=
  always_iff_along (A := fun _ => True) (fun _ _ _ h _ hok hstep => h.step hok hstep)
    (fun _ _ _ _ _ hok hstep => not_dormant_of_refused hok hstep) (fun _ h => h.pooling.dormant)
    (poolInv_start B) fun _ _ => trivial

/-- `uv_accept` fails. -/
def refusedAccept : List (Event zeroBuild) := [.accept zeroUninit ⟨0, 0, -1, 0⟩]

/-- The list has a context with an initialised handle. -/
theorem refusedAccept_not_dormant : ¬ Always step Dormant (start zeroBuild) refusedAccept := by
  intro h
  obtain ⟨ctx, hctx, hclosed⟩ := (h.2 _ rfl) 0 List.mem_cons_self
  cases hctx
  cases hclosed

end CTCPServer

end SimpleUv
