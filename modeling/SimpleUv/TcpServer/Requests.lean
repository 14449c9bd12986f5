import SimpleUv.TcpClient.Requests
import SimpleUv.TcpServer.Sending

/-!
# The write requests of the server

`sendinl` takes the front of `m_listWriteParam` or allocates, copies the data into the request, whose
buffer grows when it is too small, and gives it to `uv_write` or puts it back; `AfterSend` brings it back
in any case. The contexts that are sent to play no part here: a schedule of `RequestServer` may send at
any time.

`requests_kept` is the result for the client and the server. `RequestServer.Matches.run` shows that the
requests of the server with contexts (`SendingServer`), in every run, are those of such a schedule.
-/

namespace SimpleUv

open Foundations

/-- The write requests of the server, and whether an access was out of bounds or to a freed request. -/
structure RequestServer where
  requests : Requests
  fault : Bool

namespace WriteParam

variable {p : WriteParam} {senddata : List Byte}

/-- Data that fits is copied into the buffer as it is. -/
theorem Fits.fill_of_le (h : p.Fits) (B : Build) (hle : senddata.length ≤ p.truelen) :
    p.fill B senddata =
      some { p with base := overwrite p.base 0 senddata, len := senddata.length } := by
  have hroom : 0 + senddata.length ≤ (UvBuf.mk p.base).len := by
    show 0 + senddata.length ≤ p.base.length
    rw [← h.2]
    omega
  simp only [fill, if_neg (not_lt.2 hle), UvBuf.store_eq hroom, Option.bind_eq_bind, Option.bind_some]

/-- A buffer that is too small is reallocated at the size of the data. -/
theorem Fits.fill_of_lt (h : p.Fits) (B : Build) (hlt : p.truelen < senddata.length) :
    ∃ base, base.length = senddata.length ∧
      p.fill B senddata = some ⟨overwrite base 0 senddata, senddata.length, senddata.length⟩ := by
  have hlen := UvBuf.len_realloc B (b := ⟨p.base⟩) (n := senddata.length) (by
    show p.base.length ≤ _
    rw [← h.2]
    omega)
  have hroom : 0 + senddata.length ≤ ((UvBuf.mk p.base).realloc B senddata.length).len := by
    rw [hlen, Nat.zero_add]
  refine ⟨_, hlen, ?_⟩
  simp only [fill, if_pos hlt]
  rw [UvBuf.store_eq hroom]
  rfl

/-- **A request can be filled with any data**, and then carries it. -/
theorem Fits.fill (h : p.Fits) (B : Build) (senddata : List Byte) :
    ∃ q, p.fill B senddata = some q ∧ q.Fits ∧ q.payload = senddata := by
  rcases le_or_gt senddata.length p.truelen with hle | hlt
  · have hlength := length_overwrite (show 0 + senddata.length ≤ p.base.length by rw [← h.2]; omega)
    exact ⟨_, h.fill_of_le B hle, ⟨hle, h.2.trans hlength.symm⟩, overwrite_zero_take rfl⟩
  · obtain ⟨base, hbase, hfill⟩ := h.fill_of_lt B hlt
    have hlength := length_overwrite (show 0 + senddata.length ≤ base.length by omega)
    exact ⟨_, hfill, ⟨le_rfl, hbase.symm.trans hlength.symm⟩, overwrite_zero_take rfl⟩

end WriteParam

namespace RequestServer

variable {B : Build}

/-- The server without requests. -/
def start : RequestServer := ⟨.start, false⟩

/-- A call of `sendinl`, with the address `malloc` returns if it is called and the result of `uv_write`,
and `AfterSend` of a request in flight. -/
inductive Event
  | sendinl (senddata : List Byte) (a : ℕ) (res : ℤ)
  | afterSend (i : ℕ) (status : ℤ)

/-- `sendinl`. -/
def sendinl (B : Build) (s : RequestServer) (senddata : List Byte) (a : ℕ) (res : ℤ) :
    Option RequestServer :=
  if senddata = [] then some s
  else do
    let (c, p, rest) ← s.requests.next a (allocWriteParam B)
    let p ← p.fill B senddata
    let requests := s.requests.hold c p ⟨p, senddata⟩ rest
    some { s with requests := if res = 0 then requests.lend else requests.putBack }

/-- What an event does. An access that fails is recorded. -/
def step (B : Build) (s : RequestServer) : Event → Option RequestServer
  | .sendinl senddata a res =>
    if s.requests.free = [] ∧ (s.requests.heap a).isSome then none
    else some ((s.sendinl B senddata a res).getD { s with fault := true })
  | .afterSend i _ =>
    (s.requests.release maxListSize i).map fun requests => { s with requests := requests }

/-- **The invariant of the server.** -/
structure Inv (s : RequestServer) : Prop where
  requests : s.requests.Inv WriteParam.Carries WriteParam.Fits maxListSize
  hand : s.requests.hand = none
  running : s.fault = false

variable {s t : RequestServer} {e : Event}

theorem inv_start : start.Inv := ⟨LendingPool.inv_start, rfl, rfl⟩

theorem fits_alloc (B : Build) : (allocWriteParam B).Fits := (RequestClient.sized_alloc B).fits

/-- **The data is copied into a request of its own.** -/
theorem Inv.sendinl (h : s.Inv) (B : Build) (senddata : List Byte) {a : ℕ} (res : ℤ)
    (ha : s.requests.Allocates a) : ∃ t, s.sendinl B senddata a res = some t ∧ t.Inv := by
  unfold RequestServer.sendinl
  split_ifs with hdata hres
  · exact ⟨s, rfl, h⟩
  all_goals
    obtain ⟨c, p, rest, hnext⟩ := h.requests.next_isSome a (allocWriteParam B)
    obtain ⟨hp, -⟩ := h.requests.next h.hand ha (fits_alloc B) hnext
    obtain ⟨q, hfill, hq, hpayload⟩ := hp.fill B senddata
    have hcarries : q.Carries ⟨q, senddata⟩ := ⟨rfl, hpayload⟩
    have hheld := h.requests.hold h.hand ha (fits_alloc B) hnext hq hcarries
    simp only [hnext, Option.bind_eq_bind, Option.bind_some, hfill]
  · exact ⟨_, rfl, hheld.lend, rfl, h.running⟩
  · exact ⟨_, rfl, hheld.putBack, rfl, h.running⟩

/-- A call of `sendinl` that does not fail is a step. -/
theorem step_sendinl {senddata : List Byte} {a : ℕ} {res : ℤ} (ha : s.requests.Allocates a)
    (hs : s.sendinl B senddata a res = some t) : s.step B (.sendinl senddata a res) = some t := by
  rw [RequestServer.step, if_neg (LendingPool.not_of_allocates ha), hs, Option.getD_some]

/-- **Every step keeps the invariant.** -/
theorem Inv.step (h : s.Inv) (hs : s.step B e = some t) : t.Inv := by
  cases e with
  | sendinl senddata a res =>
    simp only [RequestServer.step, Option.ite_none_left_eq_some, Option.some.injEq] at hs
    obtain ⟨ha, rfl⟩ := hs
    obtain ⟨t, ht, hinv⟩ := h.sendinl B senddata res (LendingPool.allocates_of_not ha)
    rwa [ht, Option.getD_some]
  | afterSend i status =>
    obtain ⟨requests, hrelease, rfl⟩ := Option.map_eq_some_iff.1 hs
    obtain ⟨hinv, hhand⟩ := h.requests.release h.hand hrelease
    exact ⟨hinv, hhand, h.running⟩

theorem Inv.kept (h : s.Inv) : Kept s.requests := .of_inv h.requests fun _ => id

end RequestServer

/-- **Write requests are kept.** In every run of the client and of the server, whatever the order of the
sends, the results of `uv_write` and the completions, no access goes wrong and the requests are kept.
No request is in hand while the loop thread is not in `send_inl`, or between two calls of the server. -/
theorem requests_kept (B : Build) :
    (∀ (memory : List.Vector Byte bufferSize) (es : List (RequestClient.Event B)),
      Always RequestClient.step
        (fun s => Kept s.requests ∧ (s.sending = false → s.requests.hand = none) ∧ s.fault = false)
        (.start B memory) es) ∧
    ∀ es : List RequestServer.Event,
      Always (RequestServer.step B)
        (fun s => Kept s.requests ∧ s.requests.hand = none ∧ s.fault = false) .start es := by
  constructor
  · intro memory es
    refine Always.mono (fun s (h : s.Inv) => ⟨h.kept, h.idle, h.running⟩) ?_
    exact always_of_step (fun s e t h => h.step) (RequestClient.inv_start memory) es
  · intro es
    refine Always.mono (fun s (h : s.Inv) => ⟨h.kept, h.hand, h.running⟩) ?_
    exact always_of_step (fun s e t h => h.step) RequestServer.inv_start es

namespace RequestServer

/-! ## The server with contexts -/

variable {B : Build} {s t : RequestServer} {o o' : SendingServer B}

/-- The same requests, with their contents in the place of their addresses. -/
structure Matches (s : RequestServer) (o : SendingServer B) : Prop where
  list : s.requests.Lists o.listWriteParam
  inflight : o.inflight.map Prod.snd = s.requests.lent.map fun e => e.2.param

theorem matches_start : Matches start (.start B) := ⟨rfl, rfl⟩

namespace Matches

/-- The next request is filled in the same way on both sides. -/
theorem fill (h : s.Matches o) (hinv : s.Inv) {senddata : List Byte} {a : ℕ} {p : WriteParam}
    (ha : s.requests.Allocates a) (hs : o.nextWriteParam.1.fill B senddata = some p) :
    ∃ c rest, (∀ res, senddata ≠ [] → s.sendinl B senddata a res = some { s with
        requests := if res = 0 then (s.requests.hold c p ⟨p, senddata⟩ rest).lend
          else (s.requests.hold c p ⟨p, senddata⟩ rest).putBack }) ∧
      (s.requests.hold c p ⟨p, senddata⟩ rest).Lists o.nextWriteParam.2 := by
  obtain ⟨c, q, rest, hnext⟩ := hinv.requests.next_isSome a (allocWriteParam B)
  obtain ⟨-, hnodup, -⟩ := hinv.requests.next hinv.hand ha (fits_alloc B) hnext
  obtain ⟨hq, hrest⟩ := h.list.next hnext
  have hfront : o.nextWriteParam = (q, o.listWriteParam.tail) := by
    rw [hq]
    unfold SendingServer.nextWriteParam
    cases o.listWriteParam <;> rfl
  rw [hfront] at hs
  refine ⟨c, rest, fun res hdata => ?_, ?_⟩
  · simp only [RequestServer.sendinl, if_neg hdata, hnext, hs, Option.bind_eq_bind, Option.bind_some]
  · rw [hfront]
    exact .hold hrest fun hmem => (List.nodup_cons.1 hnodup).1 (List.mem_append_left _ hmem)

theorem sendinl (h : s.Matches o) (hinv : s.Inv) {senddata : List Byte} {c a : ℕ} {res : ℤ} {b : Bool}
    (ha : s.requests.Allocates a) (hs : o.sendinl senddata c res = some (o', b)) :
    ∃ t, s.sendinl B senddata a res = some t ∧ t.Matches o' := by
  unfold SendingServer.sendinl at hs
  by_cases hdata : senddata = []
  · rw [if_pos hdata] at hs
    cases hs
    exact ⟨s, if_pos hdata, h⟩
  rw [if_neg hdata] at hs
  obtain ⟨p, hp, hs⟩ := Option.bind_eq_some_iff.1 hs
  obtain ⟨ctx, -, hs⟩ := Option.bind_eq_some_iff.1 hs
  obtain ⟨x, rest, hsend, hlist⟩ := h.fill hinv ha hp
  refine ⟨_, hsend res hdata, ?_⟩
  by_cases hres : res = 0
  · rw [if_neg (not_not.2 hres)] at hs
    cases hs
    rw [if_pos hres]
    refine ⟨hlist, ?_⟩
    simp only [List.map_append, h.inflight, LendingPool.lend, LendingPool.hold, Option.toList_some,
      List.map_singleton]
  · rw [if_pos hres] at hs
    cases hs
    rw [if_neg hres]
    exact ⟨hlist.putBack rfl (Function.update_self _ _ _), h.inflight⟩

/-- The next request has its recorded size. -/
theorem fits_next (h : s.Matches o) (hinv : s.Inv) : o.nextWriteParam.1.Fits := by
  unfold SendingServer.nextWriteParam
  cases hlist : o.listWriteParam with
  | nil => exact fits_alloc B
  | cons p rest =>
    have hmem : some p ∈ s.requests.free.map s.requests.heap := by
      rw [← show o.listWriteParam.map some = _ from h.list, hlist]
      exact List.mem_cons_self
    obtain ⟨a, -, ha⟩ := List.mem_map.1 hmem
    exact hinv.requests.good a p ha

/-- **A send to a context that is allocated** does not fail; whether it succeeds is up to `uv_write`. -/
theorem sends (h : s.Matches o) (hinv : s.Inv) {senddata : List Byte} {c : ℕ} {ctx : TcpClientCtx}
    (hdata : senddata ≠ []) (hctx : o.server.ctxs c = some ctx) (res : ℤ) :
    ∃ o', o.sendinl senddata c res = some (o', decide (res = 0)) ∧ o'.server = o.server ∧
      ∃ t : RequestServer, t.Inv ∧ t.Matches o' := by
  obtain ⟨p, hp, -⟩ := (h.fits_next hinv).fill B senddata
  obtain ⟨o', ho', hserver⟩ : ∃ o', o.sendinl senddata c res = some (o', decide (res = 0)) ∧
      o'.server = o.server := by
    simp only [SendingServer.sendinl, if_neg hdata, hp, hctx, Option.bind_eq_bind, Option.bind_some]
    by_cases hres : res = 0
    · rw [if_neg (not_not.2 hres), decide_eq_true hres]
      exact ⟨_, rfl, rfl⟩
    · rw [if_pos hres, decide_eq_false hres]
      exact ⟨_, rfl, rfl⟩
  obtain ⟨a, ha⟩ := hinv.requests.exists_allocates
  obtain ⟨t, ht, hmatches⟩ := h.sendinl hinv ha ho'
  exact ⟨o', ho', hserver, t, hinv.step (step_sendinl ha ht), hmatches⟩

theorem afterSend (h : s.Matches o) (hinv : s.Inv) {i : ℕ} (status : ℤ) (hs : o.afterSend i = some o') :
    ∃ t, s.step B (.afterSend i status) = some t ∧ t.Matches o' := by
  obtain ⟨⟨c, p⟩, hi, hs⟩ := Option.bind_eq_some_iff.1 hs
  obtain ⟨ctx, -, hs⟩ := Option.bind_eq_some_iff.1 hs
  have hlent : (s.requests.lent.map fun e => e.2.param)[i]? = some p := by
    rw [← h.inflight, List.getElem?_map, hi, Option.map_some]
  rw [List.getElem?_map] at hlent
  obtain ⟨⟨b, x⟩, hb, rfl⟩ := Option.map_eq_some_iff.1 hlent
  obtain ⟨p, hp, rfl, -⟩ := hinv.requests.noted b x
    (List.mem_append_left _ (List.mem_of_getElem? hb))
  obtain ⟨requests, hrelease⟩ : ∃ r, s.requests.release maxListSize i = some r :=
    ⟨_, by rw [LendingPool.release, hb, Option.map_some]⟩
  obtain ⟨hlist, hlent⟩ := h.list.release hinv.requests hb hp hrelease
  refine ⟨{ s with requests := requests }, by rw [RequestServer.step, hrelease, Option.map_some], ?_⟩
  have hinflight : (o.inflight.eraseIdx i).map Prod.snd = requests.lent.map fun e => e.2.param := by
    rw [hlent, ← List.eraseIdx_map, h.inflight, List.eraseIdx_map]
  simp only at hs
  split_ifs at hs hlist <;> cases hs <;> exact ⟨hlist, hinflight⟩

/-- The loop of `broadcast` is a schedule of sends. -/
theorem sendAll (h : s.Matches o) (hinv : s.Inv) {senddata : List Byte} {res : ℕ → ℤ}
    {clients : List (ℤ × ℕ)} {excludeid : List ℤ}
    (hs : SendingServer.sendAll senddata res clients excludeid o = some o') :
    ∃ es t, exec (RequestServer.step B) s es = some t ∧ t.Inv ∧ t.Matches o' := by
  induction clients generalizing s o excludeid with
  | nil =>
    cases hs
    exact ⟨[], s, rfl, hinv, h⟩
  | cons entry clients ih =>
    unfold SendingServer.sendAll at hs
    split_ifs at hs with hexcluded
    · exact ih h hinv hs
    · obtain ⟨client, -, hs⟩ := Option.bind_eq_some_iff.1 hs
      obtain ⟨⟨o₁, b⟩, ho₁, hs⟩ := Option.bind_eq_some_iff.1 hs
      obtain ⟨a, ha⟩ := hinv.requests.exists_allocates
      obtain ⟨s₁, hs₁, h₁⟩ := h.sendinl hinv ha ho₁
      have hstep := step_sendinl ha hs₁
      obtain ⟨es, t, hes, ht⟩ := ih h₁ (hinv.step hstep) hs
      exact ⟨_ :: es, t, (exec_cons hstep).trans hes, ht⟩

/-- The requests of the server are not touched by anything else. -/
theorem of_server (h : s.Matches o) (server : CTCPServer B) :
    s.Matches { o with server := server } := ⟨h.list, h.inflight⟩

/-- **Every step of the server with contexts is a schedule of its requests.** -/
theorem step (h : s.Matches o) (hinv : s.Inv) {e : SendingServer.Event B} (hs : o.step e = some o') :
    ∃ es t, exec (RequestServer.step B) s es = some t ∧ t.Inv ∧ t.Matches o' := by
  cases e with
  | callback e =>
    obtain ⟨server, -, rfl⟩ := Option.map_eq_some_iff.1 hs
    exact ⟨[], s, rfl, hinv, h.of_server server⟩
  | broadcast senddata excludeid res =>
    simp only [SendingServer.step, Option.ite_none_left_eq_some] at hs
    replace hs := hs.2
    unfold SendingServer.broadcast at hs
    split_ifs at hs
    · cases hs
      exact ⟨[], s, rfl, hinv, h⟩
    · obtain ⟨o₁, ho₁, hs⟩ := Option.bind_eq_some_iff.1 hs
      cases hs
      obtain ⟨es, t, hes, ht, h₁⟩ := (h.of_server _).sendAll hinv ho₁
      exact ⟨es, t, hes, ht, h₁.of_server _⟩
  | afterSend i status =>
    simp only [SendingServer.step, Option.ite_none_left_eq_some] at hs
    obtain ⟨t, ht, h₁⟩ := h.afterSend hinv status hs.2
    exact ⟨[_], t, exec_cons ht, hinv.step ht, h₁⟩

end Matches

/-- **The requests of the server with contexts**, in every run, are those of a schedule. -/
theorem Matches.run (h : s.Matches o) (hinv : s.Inv) {es : List (SendingServer.Event B)}
    (hs : exec SendingServer.step o es = some o') :
    ∃ es' t, exec (RequestServer.step B) s es' = some t ∧ t.Inv ∧ t.Matches o' := by
  induction es generalizing s o with
  | nil =>
    cases hs
    exact ⟨[], s, rfl, hinv, h⟩
  | cons e es ih =>
    obtain ⟨o₁, ho₁, hs⟩ := Option.bind_eq_some_iff.1 hs
    obtain ⟨es₁, s₁, hes₁, hinv₁, h₁⟩ := h.step hinv ho₁
    obtain ⟨es₂, t, hes₂, ht⟩ := ih h₁ hinv₁ hs
    exact ⟨es₁ ++ es₂, t, (exec_append_of_exec hes₁).trans hes₂, ht⟩

end RequestServer

end SimpleUv
