import SimpleUv.Foundations.LendingPool
import SimpleUv.Foundations.Transition
import SimpleUv.TcpClient.Outbound
import Mathlib.Logic.Relation

/-!
# The write requests of the client

`m_listWriteParam` is a list of pointers, and libuv holds on to the requests it has accepted. Here the
requests are objects on a heap. `send_inl` takes the front of the list or allocates, reads a block of the
ring buffer into the request, and gives it to `uv_write`; `AfterSend` brings it back, to the list or to
the heap. The locked sections of `Send`, on other threads, come in between (`RequestClient.step`).

With each request in flight the state has the request as `uv_write` was given it, and the bytes that
left the ring buffer (`Transfer`). `Kept` is what holds of the requests in every state, and
`RequestClient.Matches.run` connects them to the client that has only the contents of the requests.
-/

namespace SimpleUv

open Foundations

/-- What `uv_write` was given: the request, and the data that was copied into it. -/
structure Transfer where
  param : WriteParam
  data : List Byte

/-- The write requests: those in `m_listWriteParam` are free, those in flight are lent. -/
abbrev Requests := LendingPool WriteParam Transfer

namespace WriteParam

/-- The request is as it was given to `uv_write`, and what is transmitted is what was copied in. -/
def Carries (p : WriteParam) (x : Transfer) : Prop := p = x.param ∧ p.payload = x.data

/-- `buf_truelen_` is the size of the buffer, and `buf_.len` is at most that. -/
def Fits (p : WriteParam) : Prop := p.len ≤ p.truelen ∧ p.truelen = p.base.length

end WriteParam

/-- **What holds of the write requests**: every allocated one is in the list, in flight or in the hand of
`send_inl`, and only once; none of these is freed; those in flight are as they were given to `uv_write`,
with the bytes that were copied in; lengths and sizes are right; and the list is short. -/
structure Kept (s : Requests) : Prop where
  once : ∀ a p, s.heap a = some p → s.free.count a + (s.lent.map Prod.fst).count a +
    (s.hand.map Prod.fst).toList.count a = 1
  live : ∀ a ∈ s.owners, ∃ p, s.heap a = some p
  unmodified : ∀ a x, (a, x) ∈ s.lent → s.heap a = some x.param ∧ x.param.payload = x.data
  fits : ∀ a p, s.heap a = some p → p.Fits
  short : s.free.length ≤ maxListSize + 1

theorem Kept.of_inv {s : Requests} {P : WriteParam → Prop}
    (h : s.Inv WriteParam.Carries P maxListSize) (hP : ∀ p, P p → p.Fits) : Kept s where
  once a p ha := h.count_owners ha
  live a ha := (h.owned a).1 ha
  unmodified a x ha := by
    obtain ⟨p, hp, rfl, hdata⟩ := h.noted a x (List.mem_append_left _ ha)
    exact ⟨hp, hdata⟩
  fits a p ha := hP p (h.good a p ha)
  short := by
    have := h.bound
    omega

/-- The client: the ring buffer, the requests, whether the loop thread is in `send_inl`, and whether an
access was out of bounds or to a freed request. -/
structure RequestClient (B : Build) where
  buferWrite : CPodCircularBuffer Byte
  requests : Requests
  sending : Bool
  fault : Bool

namespace RequestClient

variable {B : Build}

/-- The client on the memory of its ring buffer. -/
def start (B : Build) (memory : List.Vector Byte bufferSize) : RequestClient B where
  buferWrite := .construct memory.toList
  requests := .start
  sending := false
  fault := false

/-- A locked section of `Send` on another thread, a call of `send_inl` without a request, a locked
section of `send_inl`, its `uv_write`, and `AfterSend` of a request in flight. The address is the one
`malloc` returns if it is called; it is not in use. -/
inductive Event (B : Build)
  | send (x : Sender B)
  | sendInl
  | turn (a : ℕ)
  | uvWrite (res : ℤ)
  | afterSend (i : ℕ) (status : ℤ)

section Step

variable (s : RequestClient B)

/-- The locked section of `Send`. -/
def send (x : Sender B) : Option (RequestClient B) := do
  let (ring, _) ← s.buferWrite.write (x.data.bytes.drop x.iret)
    (toInt (B.toSize (x.data.bytes.length - x.iret)))
  some { s with buferWrite := ring }

/-- The locked section of `send_inl` when the ring buffer is not empty. -/
def takeBlock (a : ℕ) : Option (RequestClient B) := do
  let (c, p, rest) ← s.requests.next a (allocWriteParam B)
  let (ring, base, n) ← s.buferWrite.read p.base (toInt p.truelen)
  let p := { p with base := base, len := B.toSize n }
  some { s with
    buferWrite := ring
    requests := s.requests.hold c p ⟨p, s.buferWrite.content.take n.toNat⟩ rest }

/-- What an event does. An access that fails is recorded. -/
def step (s : RequestClient B) : Event B → Option (RequestClient B)
  | .send x =>
    if x.iret ≤ x.data.bytes.length then some ((s.send x).getD { s with fault := true }) else none
  | .sendInl =>
    if s.sending = false ∧ s.requests.hand.isNone then some { s with sending := true } else none
  | .turn a =>
    if s.sending ∧ s.requests.hand.isNone then
      if s.buferWrite.empty then some { s with sending := false }
      else if s.requests.free = [] ∧ (s.requests.heap a).isSome then none
      else some ((s.takeBlock a).getD { s with fault := true })
    else none
  | .uvWrite res =>
    if s.requests.hand.isSome then
      if res = 0 then some { s with requests := s.requests.lend }
      else some { s with requests := s.requests.putBack }
    else none
  | .afterSend i status =>
    if s.sending = false ∧ s.requests.hand.isNone then
      (s.requests.release maxListSize i).map fun requests =>
        { s with requests := requests, sending := decide (0 ≤ status) }
    else none

end Step

/-! ## The invariant -/

/-- The buffer of a request has `BUFFER_SIZE` bytes. -/
def Sized (p : WriteParam) : Prop := Outbound.Sized p ∧ p.len ≤ p.truelen

theorem Sized.fits {p : WriteParam} (h : Sized p) : p.Fits :=
  ⟨h.2, h.1.2.trans h.1.1.symm⟩

theorem sized_alloc (B : Build) : Sized (allocWriteParam B) :=
  ⟨Outbound.sized_allocWriteParam B, le_rfl⟩

/-- **The invariant of the client.** -/
structure Inv (s : RequestClient B) : Prop where
  ring : s.buferWrite.Holds s.buferWrite.content
  size : s.buferWrite.nBufSize = bufferSize
  requests : s.requests.Inv WriteParam.Carries Sized maxListSize
  idle : s.sending = false → s.requests.hand = none
  running : s.fault = false

variable {s t : RequestClient B} {e : Event B}

theorem inv_start (memory : List.Vector Byte bufferSize) : (start B memory).Inv where
  ring := .nothing (by rw [memory.toList_length]; decide)
  size := by
    show (memory.toList.length : ℤ) = bufferSize
    rw [memory.toList_length]
  requests := LendingPool.inv_start
  idle _ := rfl
  running := rfl

theorem Inv.send (h : s.Inv) {x : Sender B} (hx : x.iret ≤ x.data.bytes.length) :
    ∃ t, s.send x = some t ∧ t.Inv := by
  have hfit : toInt (B.toSize (x.data.bytes.length - x.iret)) ≤ (x.data.bytes.drop x.iret).length := by
    rw [Outbound.toSize_sub hx x.data.size, List.length_drop]
    rcases le_or_gt (toInt (x.data.bytes.length - x.iret : ℕ)) 0 with h₀ | h₀
    · omega
    · exact Outbound.toInt_le h₀
  obtain ⟨ring, m, hwrite, -, hsize, hholds⟩ := CPodCircularBuffer.write_spec h.ring hfit
  refine ⟨{ s with buferWrite := ring }, ?_, ⟨?_, hsize.trans h.size, h.requests, h.idle, h.running⟩⟩
  · simp only [RequestClient.send, hwrite, Option.bind_eq_bind, Option.bind_some]
  · show ring.Holds ring.content
    rw [hholds.content_eq]
    exact hholds

/-- **A block is read into a request of its own.** -/
theorem Inv.takeBlock (h : s.Inv) (hhand : s.requests.hand = none) {a : ℕ}
    (ha : s.requests.Allocates a) (hsending : s.sending = true) :
    ∃ t, s.takeBlock a = some t ∧ t.Inv := by
  obtain ⟨c, p, rest, hnext⟩ := h.requests.next_isSome a (allocWriteParam B)
  obtain ⟨⟨⟨hbase, htrue⟩, -⟩, -⟩ := h.requests.next hhand ha (sized_alloc B) hnext
  have hcount : toInt p.truelen = bufferSize := by
    rw [htrue]
    exact toInt_eq (by decide) (by decide)
  obtain ⟨ring, m, hread, hm, hsize, hholds⟩ := CPodCircularBuffer.read_spec h.ring
    (show toInt p.truelen ≤ p.base.length by rw [hcount, hbase])
  rw [hcount] at hread hm
  have hlen : B.toSize (m : ℤ) = m := by
    have := two_pow_le_modulus B.sizeT
    have := bufferSize_eq
    exact toSize_natCast (by omega)
  have hlength : (s.buferWrite.content.take m).length = m := by
    rw [List.length_take]
    omega
  obtain ⟨p', hp'⟩ : ∃ p' : WriteParam,
      p' = ⟨overwrite p.base 0 (s.buferWrite.content.take m), m, p.truelen⟩ := ⟨_, rfl⟩
  have hsized : Sized p' := by
    subst hp'
    refine ⟨⟨(length_overwrite ?_).trans hbase, htrue⟩, ?_⟩
    · omega
    · show m ≤ p.truelen
      omega
  have hcarries : p'.Carries ⟨p', s.buferWrite.content.take m⟩ := by
    subst hp'
    exact ⟨rfl, overwrite_zero_take hlength.symm⟩
  refine ⟨{ s with
    buferWrite := ring
    requests := s.requests.hold c p' ⟨p', s.buferWrite.content.take m⟩ rest }, ?_, ?_, ?_, ?_, ?_, ?_⟩
  · unfold RequestClient.takeBlock
    rw [hnext, Option.bind_eq_bind, Option.bind_some]
    show (s.buferWrite.read p.base (toInt p.truelen)).bind _ = _
    rw [hcount, hread, Option.bind_some]
    simp only [hlen, Int.toNat_natCast]
    rw [hp']
  · show ring.Holds ring.content
    rw [hholds.content_eq]
    exact hholds
  · exact hsize.trans h.size
  · exact h.requests.hold hhand ha (sized_alloc B) hnext hsized hcarries
  · intro hidle
    rw [hsending] at hidle
    cases hidle
  · exact h.running

/-- The ways an event can go. -/
inductive Step (s : RequestClient B) : Event B → RequestClient B → Prop
  | send {x : Sender B} {t : RequestClient B} (hx : x.iret ≤ x.data.bytes.length)
      (ht : s.send x = some t) : Step s (.send x) t
  | sendInl (hsending : s.sending = false) (hhand : s.requests.hand = none) :
      Step s .sendInl { s with sending := true }
  | empty (a : ℕ) (hsending : s.sending = true) (hhand : s.requests.hand = none)
      (hempty : s.buferWrite.empty = true) : Step s (.turn a) { s with sending := false }
  | turn {a : ℕ} {t : RequestClient B} (hsending : s.sending = true) (hhand : s.requests.hand = none)
      (hempty : s.buferWrite.empty = false) (ha : s.requests.Allocates a)
      (ht : s.takeBlock a = some t) : Step s (.turn a) t
  | lend {c : ℕ} {x : Transfer} (hx : s.requests.hand = some (c, x)) :
      Step s (.uvWrite 0) { s with requests := s.requests.lend }
  | putBack {res : ℤ} {c : ℕ} {x : Transfer} (hres : res ≠ 0) (hx : s.requests.hand = some (c, x)) :
      Step s (.uvWrite res) { s with requests := s.requests.putBack }
  | afterSend {i : ℕ} (status : ℤ) {requests : Requests} (hsending : s.sending = false)
      (hhand : s.requests.hand = none) (hrelease : s.requests.release maxListSize i = some requests) :
      Step s (.afterSend i status)
        { s with requests := requests, sending := decide (0 ≤ status) }

/-- No step is a fault. -/
theorem Inv.step_cases (h : s.Inv) (hs : s.step e = some t) : Step s e t := by
  cases e with
  | send x =>
    simp only [RequestClient.step, Option.ite_none_right_eq_some, Option.some.injEq] at hs
    obtain ⟨hx, rfl⟩ := hs
    obtain ⟨t, ht, -⟩ := h.send hx
    rw [ht, Option.getD_some]
    exact .send hx ht
  | sendInl =>
    simp only [RequestClient.step, Option.ite_none_right_eq_some, Option.some.injEq] at hs
    obtain ⟨⟨hsending, hhand⟩, rfl⟩ := hs
    exact .sendInl hsending (Option.isNone_iff_eq_none.1 hhand)
  | turn a =>
    simp only [RequestClient.step, Option.ite_none_right_eq_some] at hs
    obtain ⟨⟨hsending, hhand⟩, hs⟩ := hs
    rw [Option.isNone_iff_eq_none] at hhand
    split_ifs at hs with hempty ha
    · cases hs
      exact .empty a hsending hhand hempty
    · have hnew := LendingPool.allocates_of_not ha
      obtain ⟨t, ht, -⟩ := h.takeBlock hhand hnew hsending
      rw [ht, Option.getD_some] at hs
      cases hs
      exact .turn hsending hhand (Bool.eq_false_iff.2 hempty) hnew ht
  | uvWrite res =>
    simp only [RequestClient.step, Option.ite_none_right_eq_some] at hs
    obtain ⟨hhand, hs⟩ := hs
    obtain ⟨⟨c, x⟩, hx⟩ := Option.isSome_iff_exists.1 hhand
    split_ifs at hs with hres
    · cases hs
      subst hres
      exact .lend hx
    · cases hs
      exact .putBack hres hx
  | afterSend i status =>
    simp only [RequestClient.step, Option.ite_none_right_eq_some] at hs
    obtain ⟨⟨hsending, hhand⟩, hs⟩ := hs
    obtain ⟨requests, hrelease, rfl⟩ := Option.map_eq_some_iff.1 hs
    exact .afterSend status hsending (Option.isNone_iff_eq_none.1 hhand) hrelease

/-- **Every step keeps the invariant.** -/
theorem Inv.step (h : s.Inv) (hs : s.step e = some t) : t.Inv := by
  cases h.step_cases hs with
  | send hx ht =>
    obtain ⟨t', ht', hinv⟩ := h.send hx
    rw [ht] at ht'
    cases ht'
    exact hinv
  | sendInl => exact ⟨h.ring, h.size, h.requests, nofun, h.running⟩
  | empty a hsending hhand => exact ⟨h.ring, h.size, h.requests, fun _ => hhand, h.running⟩
  | turn hsending hhand hempty ha ht =>
    obtain ⟨t', ht', hinv⟩ := h.takeBlock hhand ha hsending
    rw [ht] at ht'
    cases ht'
    exact hinv
  | lend => exact ⟨h.ring, h.size, h.requests.lend, fun _ => rfl, h.running⟩
  | putBack => exact ⟨h.ring, h.size, h.requests.putBack, fun _ => rfl, h.running⟩
  | afterSend status hsending hhand hrelease =>
    obtain ⟨hreq, hnone⟩ := h.requests.release hhand hrelease
    exact ⟨h.ring, h.size, hreq, fun _ => hnone, h.running⟩

theorem Inv.kept (h : s.Inv) : Kept s.requests :=
  .of_inv h.requests fun _ hp => hp.fits

/-! ## The client with the contents of its requests -/

/-- The same state, with the contents of the requests in the place of their addresses. -/
structure Matches (s : RequestClient B) (o : Outbound B) : Prop where
  ring : o.buferWrite = s.buferWrite
  list : s.requests.Lists o.listWriteParam
  inflight : o.inflight = s.requests.lent.map fun e => e.2.param
  idle : s.requests.hand = none → s.sending = false → o.loop = .idle
  sending : s.requests.hand = none → s.sending = true → ∃ recv, o.loop = .sendInl recv
  writing : ∀ c x, s.requests.hand = some (c, x) → s.sending = true ∧
    ∃ recv, o.loop = .writing x.param recv

/-- What an event is there. -/
def Performs (o : Outbound B) : Event B → Outbound B → Prop
  | .send x, o' => ∃ t, o.sendWrite t x = some o'
  | .sendInl, o' => o.loop = .idle ∧ o' = { o with loop := .sendInl none }
  | .turn _, o' => ∃ recv, o.loop = .sendInl recv ∧
      (o.buferWrite.empty = true ∧ o' = { o with loop := .idle } ∨
        o.buferWrite.empty = false ∧ o.takeBlock recv = some o')
  | .uvWrite res, o' => ∃ conn, o.uvWrite conn res = some o'
  | .afterSend i status, o' => o.loop = .idle ∧ o.afterSend i status = some o'

theorem matches_start (memory : List.Vector Byte bufferSize) :
    Matches (start B memory) (.start memory) where
  ring := rfl
  list := rfl
  inflight := rfl
  idle _ _ := rfl
  sending _ h := by cases h
  writing c x h := by cases h

namespace Matches

variable {o : Outbound B}

/-- The next request has the same contents on both sides. -/
theorem next (h : s.Matches o) {a c : ℕ} {p : WriteParam} {rest : List ℕ}
    (hnext : s.requests.next a (allocWriteParam B) = some (c, p, rest)) :
    ∃ l, o.nextWriteParam = (p, l) ∧ l.map some = rest.map s.requests.heap := by
  obtain ⟨rfl, hrest⟩ := h.list.next hnext
  refine ⟨_, ?_, hrest⟩
  unfold Outbound.nextWriteParam
  cases o.listWriteParam <;> rfl

theorem send (h : s.Matches o) {x : Sender B} (hs : s.send x = some t) :
    ∃ o', Performs o (.send x) o' ∧ t.Matches o' := by
  unfold RequestClient.send at hs
  rw [Option.bind_eq_bind] at hs
  obtain ⟨⟨ring, n⟩, hwrite, hs⟩ := Option.bind_eq_some_iff.1 hs
  simp only [Option.some.injEq] at hs
  subst hs
  obtain ⟨o', ho', hring, hlist, hinflight, hloop⟩ : ∃ o', o.sendWrite 0 x = some o' ∧
      o'.buferWrite = ring ∧ o'.listWriteParam = o.listWriteParam ∧ o'.inflight = o.inflight ∧
        o'.loop = o.loop := by
    unfold Outbound.sendWrite
    rw [h.ring]
    extract_lets rest len
    rw [hwrite]
    exact ⟨_, rfl, rfl, rfl, rfl, rfl⟩
  refine ⟨o', ⟨0, ho'⟩, hring, hlist ▸ h.list, hinflight ▸ h.inflight, ?_, ?_, ?_⟩
  · rw [hloop]
    exact h.idle
  · rw [hloop]
    exact h.sending
  · rw [hloop]
    exact h.writing

theorem takeBlock (h : s.Matches o) (hinv : s.Inv) (hhand : s.requests.hand = none) {a : ℕ}
    (ha : s.requests.Allocates a) (recv : Option (Chunk B)) (hs : s.takeBlock a = some t)
    (hsending : s.sending = true) : ∃ o', o.takeBlock recv = some o' ∧ t.Matches o' := by
  obtain ⟨⟨c, p, rest⟩, hnext, hs⟩ := Option.bind_eq_some_iff.1 hs
  obtain ⟨⟨ring, base, n⟩, hread, hs⟩ := Option.bind_eq_some_iff.1 hs
  cases hs
  obtain ⟨l, hl, hrest⟩ := h.next hnext
  obtain ⟨-, hnodup, -⟩ := hinv.requests.next hhand ha (sized_alloc B) hnext
  have hc : c ∉ rest := fun hmem =>
    (List.nodup_cons.1 hnodup).1 (List.mem_append_left _ hmem)
  refine ⟨{ o with
    buferWrite := ring, listWriteParam := l, taken := o.taken ++ base.take n.toNat
    loop := .writing { p with base := base, len := B.toSize n } recv }, ?_, ?_⟩
  · simp only [Outbound.takeBlock, hl, h.ring, hread, Option.bind_eq_bind, Option.bind_some]
  · refine ⟨rfl, .hold hrest hc, h.inflight, fun hnone => ?_, fun hnone => ?_, fun c' x hx => ?_⟩
    · cases hnone
    · cases hnone
    · cases hx
      exact ⟨hsending, recv, rfl⟩

theorem lend (h : s.Matches o) {c : ℕ} {x : Transfer} (hx : s.requests.hand = some (c, x)) :
    ∃ o', Performs o (.uvWrite 0) o' ∧ ({ s with requests := s.requests.lend }).Matches o' := by
  obtain ⟨hsending, recv, hloop⟩ := h.writing c x hx
  refine ⟨{ o with
    inflight := o.inflight ++ [x.param], writes := o.writes ++ [(0, x.param.payload)]
    loop := .sendInl recv }, ⟨0, by simp only [Outbound.uvWrite, hloop, if_true]⟩, ?_⟩
  refine ⟨h.ring, h.list, ?_, fun _ hf => ?_, fun _ _ => ⟨recv, rfl⟩, fun _ _ hnone => ?_⟩
  · simp only [LendingPool.lend, hx, List.map_append, h.inflight, Option.toList_some,
      List.map_singleton]
  · cases hsending.symm.trans hf
  · cases hnone

theorem putBack (h : s.Matches o) (hinv : s.Inv) {res : ℤ} (hres : res ≠ 0) {c : ℕ} {x : Transfer}
    (hx : s.requests.hand = some (c, x)) :
    ∃ o', Performs o (.uvWrite res) o' ∧
      ({ s with requests := s.requests.putBack }).Matches o' := by
  obtain ⟨hsending, recv, hloop⟩ := h.writing c x hx
  refine ⟨{ o with
    listWriteParam := o.listWriteParam ++ [x.param], loop := .sendInl recv },
    ⟨0, by simp only [Outbound.uvWrite, hloop, if_neg hres]⟩, ?_⟩
  obtain ⟨p, hp, rfl, -⟩ := hinv.requests.noted c x (by simp [hx])
  refine ⟨h.ring, h.list.putBack hx hp, h.inflight, fun _ hf => ?_, fun _ _ => ⟨recv, rfl⟩,
    fun _ _ hnone => ?_⟩
  · cases hsending.symm.trans hf
  · cases hnone

/-- A request in flight comes back to the list, or to the heap, on both sides. -/
theorem recycle (h : s.Matches o) (hinv : s.Inv) {i : ℕ} {requests : Requests}
    (hs : s.requests.release maxListSize i = some requests) :
    ∃ p, o.inflight[i]? = some p ∧
      requests.Lists ({ o with inflight := o.inflight.eraseIdx i }.recycle p).listWriteParam ∧
      o.inflight.eraseIdx i = requests.lent.map fun e => e.2.param := by
  obtain ⟨⟨c, x⟩, hi, -⟩ := Option.map_eq_some_iff.1 hs
  obtain ⟨p, hp, rfl, -⟩ := hinv.requests.noted c x
    (List.mem_append_left _ (List.mem_of_getElem? hi))
  obtain ⟨hlist, hlent⟩ := h.list.release hinv.requests hi hp hs
  refine ⟨x.param, by rw [h.inflight, List.getElem?_map, hi, Option.map_some], ?_, ?_⟩
  · unfold Outbound.recycle
    simp only
    split_ifs at hlist ⊢ <;> exact hlist
  · rw [h.inflight, List.eraseIdx_map, hlent]

theorem afterSend (h : s.Matches o) (hinv : s.Inv) (hsending : s.sending = false)
    (hhand : s.requests.hand = none) {i : ℕ} (status : ℤ) {requests : Requests}
    (hrelease : s.requests.release maxListSize i = some requests) :
    ∃ o', Performs o (.afterSend i status) o' ∧
      ({ s with requests := requests, sending := decide (0 ≤ status) }).Matches o' := by
  have hidle := h.idle hhand hsending
  have hhand' : requests.hand = none := (hinv.requests.release hhand hrelease).2
  obtain ⟨p, hget, hlist, hinflight⟩ := h.recycle hinv hrelease
  obtain ⟨o', ho', hring, hloop, hflight⟩ : ∃ o' : Outbound B,
      { o with inflight := o.inflight.eraseIdx i }.recycle p = o' ∧
        o'.buferWrite = o.buferWrite ∧ o'.loop = .idle ∧ o'.inflight = o.inflight.eraseIdx i := by
    refine ⟨_, rfl, ?_⟩
    unfold Outbound.recycle
    split_ifs <;> exact ⟨rfl, hidle, rfl⟩
  rw [ho'] at hlist
  have hin : ∀ c x, requests.hand ≠ some (c, x) := by simp [hhand']
  rcases lt_or_ge status 0 with hstatus | hstatus
  · refine ⟨o', ⟨hidle, ?_⟩, ⟨hring.trans h.ring, hlist, hflight.trans hinflight, fun _ _ => hloop,
      fun _ hf => ?_, fun c x hx => absurd hx (hin c x)⟩⟩
    · simp only [Outbound.afterSend, hget, Option.bind_eq_bind, Option.bind_some, ho',
        if_pos hstatus]
    · exact absurd (of_decide_eq_true hf) (by omega)
  · refine ⟨{ o' with loop := .sendInl none }, ⟨hidle, ?_⟩, ⟨hring.trans h.ring, hlist,
      hflight.trans hinflight, fun _ hf => ?_, fun _ _ => ⟨none, rfl⟩,
      fun c x hx => absurd hx (hin c x)⟩⟩
    · simp only [Outbound.afterSend, hget, Option.bind_eq_bind, Option.bind_some, ho',
        if_neg (not_lt.2 hstatus)]
    · exact absurd hstatus (of_decide_eq_false hf)

/-- **Every step is one of the client with the contents of the requests.** -/
theorem step (h : s.Matches o) (hinv : s.Inv) (hs : s.step e = some t) :
    ∃ o', Performs o e o' ∧ t.Matches o' := by
  cases hinv.step_cases hs with
  | send hx ht => exact h.send ht
  | sendInl hsending hhand =>
    refine ⟨{ o with loop := .sendInl none }, ⟨h.idle hhand hsending, rfl⟩, h.ring, h.list,
      h.inflight, nofun, fun _ _ => ⟨none, rfl⟩, fun c x hx => ?_⟩
    simp [hhand] at hx
  | empty a hsending hhand hempty =>
    obtain ⟨recv, hloop⟩ := h.sending hhand hsending
    refine ⟨{ o with loop := .idle }, ⟨recv, hloop, .inl ⟨by rw [h.ring, hempty], rfl⟩⟩, h.ring,
      h.list, h.inflight, fun _ _ => rfl, nofun, fun c x hx => ?_⟩
    simp [hhand] at hx
  | turn hsending hhand hempty ha ht =>
    obtain ⟨recv, hloop⟩ := h.sending hhand hsending
    obtain ⟨o', ho', hmatches⟩ := h.takeBlock hinv hhand ha recv ht hsending
    exact ⟨o', ⟨recv, hloop, .inr ⟨by rw [h.ring, hempty], ho'⟩⟩, hmatches⟩
  | lend hx => exact h.lend hx
  | putBack hres hx => exact h.putBack hinv hres hx
  | afterSend status hsending hhand hrelease => exact h.afterSend hinv hsending hhand status hrelease

end Matches

/-- **Every run is one of the client with the contents of the requests.** -/
theorem Matches.run {o : Outbound B} (h : s.Matches o) (hinv : s.Inv) {es : List (Event B)}
    (hs : exec RequestClient.step s es = some t) :
    ∃ o', Relation.ReflTransGen (fun o o' => ∃ e, Performs o e o') o o' ∧ t.Matches o' := by
  induction es generalizing s o with
  | nil =>
    cases hs
    exact ⟨o, .refl, h⟩
  | cons e es ih =>
    obtain ⟨s₁, hs₁, hs⟩ := Option.bind_eq_some_iff.1 hs
    obtain ⟨o₁, ho₁, h₁⟩ := h.step hinv hs₁
    obtain ⟨o', hrun, hmatches⟩ := ih h₁ (hinv.step hs₁) hs
    exact ⟨o', .head ⟨e, ho₁⟩ hrun, hmatches⟩

end RequestClient

end SimpleUv
