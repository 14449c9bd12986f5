import SimpleUv.PacketSync.Calls
import SimpleUv.TcpClient.PodCircularBuffer
import Mathlib.Logic.Function.Basic

/-!
# The outgoing side of the client

`Send` copies a message into the ring buffer, in portions that its caller's thread writes under the
mutex (`sendStep`); `send_inl` takes blocks out of it on the loop thread, under the mutex
(`takeBlock`), and gives them to `uv_write` outside (`uvWrite`). A locked section is one step, since
nothing else touches the ring buffer while it runs. `AfterSend` is called once for every accepted
`uv_write`, in any order.

Besides the data of the client, the state records the calls of `Send` so far, the bytes these have
written to the ring buffer, each with the number of its call, the bytes `send_inl` has taken out of
it, and the `uv_write` calls that returned 0, each with the number of its connection.
-/

namespace SimpleUv

open Foundations

/-- `write_param`. -/
structure WriteParam where
  base : List Byte
  len : ℕ
  truelen : ℕ

/-- What `uv_write` is given. -/
def WriteParam.payload (p : WriteParam) : List Byte := p.base.take p.len

/-- `AllocWriteParam`. -/
def allocWriteParam (B : Build) : WriteParam where
  base := (List.range bufferSize).map B.junk
  len := bufferSize
  truelen := bufferSize

/-- Where a thread is in `Send`: at the loop condition, before the locked write, or before the last
`uv_async_send`. -/
inductive SendPc
  | check
  | write
  | signal
  deriving DecidableEq, Repr

/-- A thread in `Send`. `call` is the number of the call. -/
structure Sender (B : Build) where
  call : ℕ
  data : Chunk B
  iret : ℕ
  pc : SendPc

/-- The bytes the thread has yet to write. -/
def Sender.rest {B : Build} (s : Sender B) : List Byte := s.data.bytes.drop s.iret

/-- How many bytes its next locked section writes to a ring buffer that holds `queued` bytes. -/
def Sender.portion {B : Build} (s : Sender B) (queued : ℕ) : ℕ :=
  (min (toInt (B.toSize ((s.data.bytes.length : ℤ) - s.iret))) ((bufferSize : ℤ) - queued)).toNat

/-- The thread after a locked section that wrote `n` bytes. -/
def Sender.advance {B : Build} (s : Sender B) (n : ℕ) : Sender B :=
  { s with iret := s.iret + n, pc := if s.iret + n < s.data.bytes.length then .check else .signal }

/-- Where the loop thread is: not in a callback, before the locked section of `send_inl`, or before
its `uv_write`. `recv` is the data `AfterRecv` has yet to parse when it called `send_inl`. -/
inductive Loop (B : Build)
  | idle
  | sendInl (recv : Option (Chunk B))
  | writing (p : WriteParam) (recv : Option (Chunk B))

/-- The outgoing side of `CTCPClient`. -/
structure Outbound (B : Build) where
  buferWrite : CPodCircularBuffer Byte
  listWriteParam : List WriteParam
  asyncPending : Bool
  senders : ℕ → Option (Sender B)
  inflight : List WriteParam
  loop : Loop B
  calls : List (Chunk B)
  accepted : List (ℕ × Byte)
  taken : List Byte
  writes : List (ℕ × List Byte)

namespace Outbound

variable {B : Build} (o : Outbound B)

/-- The ring buffer on the memory it is constructed on, and nothing sent. -/
def start (memory : List.Vector Byte bufferSize) : Outbound B where
  buferWrite := .construct memory.toList
  listWriteParam := []
  asyncPending := false
  senders _ := none
  inflight := []
  loop := .idle
  calls := []
  accepted := []
  taken := []
  writes := []

/-- What is in the ring buffer. -/
def queue : List Byte := o.buferWrite.content

/-- The bytes `Send` has accepted. -/
def acceptedBytes : List Byte := o.accepted.map Prod.snd

/-- The block `send_inl` is about to give to `uv_write`. -/
def held : List Byte :=
  match o.loop with
  | .writing p _ => p.payload
  | _ => []

/-- The payloads of the `uv_write` calls that returned 0. -/
def written : List Byte := o.writes.flatMap Prod.snd

/-- The start of `Send`, which returns at once when there is nothing to send. -/
def call (t : ℕ) (data : Chunk B) : Option (Outbound B) :=
  match o.senders t with
  | some _ => none
  | none =>
    if data.bytes = [] then some o
    else some { o with
      asyncPending := true
      senders := Function.update o.senders t (some ⟨o.calls.length, data, 0, .check⟩)
      calls := o.calls ++ [data] }

/-- The locked section of `Send`. -/
def sendWrite (t : ℕ) (s : Sender B) : Option (Outbound B) := do
  let rest := s.data.bytes.drop s.iret
  let len := s.data.bytes.length
  let (ring, n) ← o.buferWrite.write rest (toInt (B.toSize (len - s.iret)))
  let iret := B.toSize (s.iret + n)
  some { o with
    buferWrite := ring
    accepted := o.accepted ++ (rest.take n.toNat).map (Prod.mk s.call)
    senders := Function.update o.senders t
      (some { s with iret := iret, pc := if iret < len then .check else .signal }) }

/-- The next step of a thread in `Send`. -/
def sendStep (isUserAskForClosed : Bool) (t : ℕ) : Option (Outbound B) := do
  let s ← o.senders t
  match s.pc with
  | .check =>
    let pc := if isUserAskForClosed then .signal else .write
    some { o with senders := Function.update o.senders t (some { s with pc := pc }) }
  | .write => o.sendWrite t s
  | .signal => some { o with asyncPending := true, senders := Function.update o.senders t none }

/-- Recycle a write parameter, or `FreeWriteParam` when the list is long. -/
def recycle (p : WriteParam) : Outbound B :=
  if maxListSize < o.listWriteParam.length then o
  else { o with listWriteParam := o.listWriteParam ++ [p] }

/-- The write parameter for the next block: the front of the list, or a new one. -/
def nextWriteParam : WriteParam × List WriteParam :=
  match o.listWriteParam with
  | [] => (allocWriteParam B, [])
  | p :: rest => (p, rest)

/-- The locked section of `send_inl` when the ring buffer is not empty. -/
def takeBlock (recv : Option (Chunk B)) : Option (Outbound B) := do
  let (p, rest) := o.nextWriteParam
  let (ring, base, n) ← o.buferWrite.read p.base (toInt p.truelen)
  some { o with
    buferWrite := ring
    listWriteParam := rest
    taken := o.taken ++ base.take n.toNat
    loop := .writing { p with base := base, len := B.toSize n } recv }

/-- `uv_write` in `send_inl`, on the connection `conn`. -/
def uvWrite (conn : ℕ) (res : ℤ) : Option (Outbound B) :=
  match o.loop with
  | .writing p recv =>
    if res = 0 then
      some { o with
        inflight := o.inflight ++ [p]
        writes := o.writes ++ [(conn, p.payload)]
        loop := .sendInl recv }
    else some { o with listWriteParam := o.listWriteParam ++ [p], loop := .sendInl recv }
  | _ => none

/-- `AfterSend` of a write in flight. -/
def afterSend (i : ℕ) (status : ℤ) : Option (Outbound B) := do
  let p ← o.inflight[i]?
  let o := { o with inflight := o.inflight.eraseIdx i }.recycle p
  if status < 0 then some o else some { o with loop := .sendInl none }

/-! ## The invariant -/

/-- The buffer of a write parameter has its recorded size. -/
def Sized (p : WriteParam) : Prop := p.base.length = bufferSize ∧ p.truelen = bufferSize

/-- **The invariant of the outgoing side**: the ring buffer holds the accepted bytes that are not yet
taken out of it. -/
structure Inv (o : Outbound B) : Prop where
  ring : o.buferWrite.Holds o.queue
  size : o.buferWrite.nBufSize = bufferSize
  accepted : o.acceptedBytes = o.taken ++ o.queue
  list : ∀ p ∈ o.listWriteParam, Sized p
  inflight : ∀ p ∈ o.inflight, Sized p
  held : ∀ p recv, o.loop = .writing p recv → Sized p
  iret_le : ∀ t s, o.senders t = some s → s.iret ≤ s.data.bytes.length

variable {o} {o' : Outbound B}

/-- Bytes without the number of their call. -/
theorem map_snd_tag (k : ℕ) (xs : List Byte) : (xs.map (Prod.mk k)).map Prod.snd = xs := by
  induction xs with
  | nil => rfl
  | cons x xs ih => rw [List.map_cons, List.map_cons, ih]

theorem sized_allocWriteParam (B : Build) : Sized (allocWriteParam B) := by
  refine ⟨?_, rfl⟩
  rw [allocWriteParam, List.length_map, List.length_range]

theorem inv_start (memory : List.Vector Byte bufferSize) : (start memory : Outbound B).Inv where
  ring := .nothing (by rw [memory.toList_length]; decide)
  size := by
    show (memory.toList.length : ℤ) = bufferSize
    rw [memory.toList_length]
  accepted := rfl
  list p h := by cases h
  inflight p h := by cases h
  held p recv h := by cases h
  iret_le t s h := by cases h

/-- A positive `int` made from a size is at most that size. -/
theorem toInt_le {n : ℕ} (h : 0 < toInt n) : toInt n ≤ n := by
  obtain ⟨c, hc⟩ := exists_toInt n
  have := toInt_mem n
  omega

theorem toSize_sub {n m : ℕ} (h : m ≤ n) (hn : 2 * n < B.sizeT.modulus) :
    B.toSize ((n : ℤ) - m) = n - m := toSize_eq (by omega) (by omega)

/-- **The locked section of `Send`** appends the next portion of the message. -/
theorem Inv.sendWrite (h : o.Inv) {t : ℕ} {s : Sender B} (hs : o.senders t = some s) :
    ∃ ring, o.sendWrite t s = some { o with
        buferWrite := ring
        accepted := o.accepted ++
          (s.rest.take (s.portion o.queue.length)).map (Prod.mk s.call)
        senders := Function.update o.senders t
          (some (s.advance (s.portion o.queue.length))) } ∧
      ring.nBufSize = bufferSize ∧ s.iret + s.portion o.queue.length ≤ s.data.bytes.length ∧
      ring.Holds (o.queue ++ s.rest.take (s.portion o.queue.length)) := by
  have hle := h.iret_le t s hs
  have hsize := s.data.size
  have hlen : (s.data.bytes.drop s.iret).length = s.data.bytes.length - s.iret := List.length_drop
  have hcount : B.toSize ((s.data.bytes.length : ℤ) - s.iret) = s.data.bytes.length - s.iret :=
    toSize_sub hle hsize
  have hfit : toInt (s.data.bytes.length - s.iret : ℕ) ≤ (s.data.bytes.drop s.iret).length := by
    rw [hlen]
    rcases le_or_gt (toInt (s.data.bytes.length - s.iret : ℕ)) 0 with h₀ | h₀
    · omega
    · exact toInt_le h₀
  have hq := h.ring.length_le
  obtain ⟨ring, m, hwrite, hm, hring, hholds⟩ := CPodCircularBuffer.write_spec h.ring hfit
  rw [h.size] at hm hring
  have hportion : s.portion o.queue.length = m := by
    unfold Sender.portion
    rw [hcount]
    omega
  have hiret : s.iret + m ≤ s.data.bytes.length := by omega
  have hnew : B.toSize (s.iret + (m : ℤ)) = s.iret + m := toSize_eq (by omega) (by omega)
  refine ⟨ring, ?_, hring, hportion ▸ hiret, hportion ▸ hholds⟩
  rw [hportion]
  simp only [Outbound.sendWrite, hcount, hwrite, hnew, Option.bind_eq_bind, Option.bind_some,
    Int.toNat_natCast, Sender.rest, Sender.advance]

theorem Inv.nextWriteParam (h : o.Inv) :
    Sized o.nextWriteParam.1 ∧ ∀ p ∈ o.nextWriteParam.2, Sized p := by
  have hall := h.list
  unfold Outbound.nextWriteParam
  cases hl : o.listWriteParam with
  | nil => exact ⟨sized_allocWriteParam B, fun p hp => by cases hp⟩
  | cons p rest =>
    rw [hl] at hall
    exact ⟨hall p List.mem_cons_self, fun q hq => hall q (List.mem_cons_of_mem p hq)⟩

/-- **The locked section of `send_inl`** takes as much as fits into a write parameter. -/
theorem Inv.takeBlock (h : o.Inv) (recv : Option (Chunk B)) :
    ∃ ring p rest, o.takeBlock recv = some { o with
        buferWrite := ring
        listWriteParam := rest
        taken := o.taken ++ p.payload
        loop := .writing p recv } ∧
      ring.nBufSize = bufferSize ∧ Sized p ∧ (∀ p ∈ rest, Sized p) ∧
      p.payload = o.queue.take bufferSize ∧ ring.Holds (o.queue.drop bufferSize) := by
  obtain ⟨⟨hbase, htrue⟩, hrest⟩ := h.nextWriteParam
  have hcount : toInt o.nextWriteParam.1.truelen = bufferSize := by
    rw [htrue]
    exact toInt_eq (by decide) (by decide)
  obtain ⟨ring, m, hread, hm, hring, hholds⟩ := CPodCircularBuffer.read_spec h.ring
    (show toInt o.nextWriteParam.1.truelen ≤ o.nextWriteParam.1.base.length by rw [hcount, hbase])
  rw [hcount] at hread hm
  have hm' : m = min bufferSize o.queue.length := by omega
  have hlen : B.toSize (m : ℤ) = m := by
    have := two_pow_le_modulus B.sizeT
    have := bufferSize_eq
    exact toSize_natCast (by omega)
  have htake : (overwrite o.nextWriteParam.1.base 0 (o.queue.take m)).take m =
      o.queue.take m := overwrite_zero_take (by rw [List.length_take]; omega)
  have hall : o.queue.take m = o.queue.take bufferSize ∧
      o.queue.drop m = o.queue.drop bufferSize := by
    rcases le_or_gt bufferSize o.queue.length with hle | hlt
    · rw [hm', min_eq_left hle]
      exact ⟨rfl, rfl⟩
    · rw [List.drop_eq_nil_of_le (by omega), List.drop_eq_nil_of_le hlt.le,
        List.take_of_length_le (by omega), List.take_of_length_le hlt.le]
      exact ⟨rfl, rfl⟩
  refine ⟨ring, { o.nextWriteParam.1 with
    base := overwrite o.nextWriteParam.1.base 0 (o.queue.take m), len := m }, _, ?_,
    hring.trans h.size, ⟨?_, htrue⟩, hrest, htake.trans hall.1, hall.2 ▸ hholds⟩
  · simp only [Outbound.takeBlock, hcount, hread, hlen, Option.bind_eq_bind, Option.bind_some,
      Int.toNat_natCast, WriteParam.payload]
  · refine (length_overwrite ?_).trans hbase
    rw [List.length_take]
    omega

/-! ## The invariant is kept -/

/-- The loop thread is not at a `uv_write`, and the rest is as before. -/
theorem Inv.frame (h : o.Inv) (async : Bool) {loop : Loop B}
    (hloop : ∀ p recv, loop ≠ .writing p recv) :
    ({ o with asyncPending := async, loop := loop } : Outbound B).Inv where
  ring := h.ring
  size := h.size
  accepted := h.accepted
  list := h.list
  inflight := h.inflight
  held p recv hp := absurd hp (hloop p recv)
  iret_le := h.iret_le

theorem Inv.setAsync (h : o.Inv) (async : Bool) :
    ({ o with asyncPending := async } : Outbound B).Inv :=
  ⟨h.ring, h.size, h.accepted, h.list, h.inflight, h.held, h.iret_le⟩

/-- Threads in `Send` change. -/
theorem Inv.setSender (h : o.Inv) {t : ℕ} {s : Option (Sender B)} (async : Bool)
    (calls : List (Chunk B)) (hs : ∀ s', s = some s' → s'.iret ≤ s'.data.bytes.length) :
    ({ o with asyncPending := async, calls := calls,
              senders := Function.update o.senders t s } : Outbound B).Inv where
  ring := h.ring
  size := h.size
  accepted := h.accepted
  list := h.list
  inflight := h.inflight
  held := h.held
  iret_le := forall_update (fun t' s' _ hs' => h.iret_le t' s' hs') hs

theorem Inv.call (h : o.Inv) {t : ℕ} {data : Chunk B} (hc : o.call t data = some o') : o'.Inv := by
  unfold Outbound.call at hc
  split at hc
  · cases hc
  · split_ifs at hc <;> cases hc
    · exact h
    · refine h.setSender true _ ?_
      rintro s' ⟨⟩
      exact Nat.zero_le _

theorem Inv.sendStep (h : o.Inv) {flag : Bool} {t : ℕ} (hc : o.sendStep flag t = some o') :
    o'.Inv := by
  obtain ⟨s, hs, hc⟩ := Option.bind_eq_some_iff.1 hc
  have hle := h.iret_le t s hs
  split at hc
  · cases hc
    refine h.setSender o.asyncPending o.calls ?_
    rintro s' ⟨⟩
    exact hle
  · obtain ⟨ring, hwrite, hsize, hiret, hholds⟩ := h.sendWrite hs
    rw [hc, Option.some.injEq] at hwrite
    subst hwrite
    have hq : ring.content = _ := hholds.content_eq
    refine ⟨?_, hsize, ?_, h.list, h.inflight, h.held,
      forall_update (fun t' s' _ hs' => h.iret_le t' s' hs') ?_⟩
    · show ring.Holds ring.content
      rw [hq]
      exact hholds
    · show List.map Prod.snd (o.accepted ++ _) = o.taken ++ ring.content
      rw [hq, List.map_append, map_snd_tag, ← List.append_assoc, ← h.accepted, acceptedBytes]
    · rintro s' ⟨⟩
      exact hiret
  · cases hc
    exact h.setSender true o.calls fun s' hs' => by cases hs'

theorem Inv.takeBlock_inv (h : o.Inv) {recv : Option (Chunk B)} (hc : o.takeBlock recv = some o') :
    o'.Inv := by
  obtain ⟨ring, p, rest, htake, hsize, hp, hrest, hpayload, hholds⟩ := h.takeBlock recv
  rw [hc, Option.some.injEq] at htake
  subst htake
  have hq : ring.content = _ := hholds.content_eq
  refine ⟨?_, hsize, ?_, hrest, h.inflight, fun q recv' hq' => ?_, h.iret_le⟩
  · rw [queue, hq]
    exact hholds
  · show o.acceptedBytes = _
    rw [queue, hq, h.accepted, hpayload, List.append_assoc, List.take_append_drop]
  · cases hq'
    exact hp

theorem Inv.uvWrite (h : o.Inv) {conn : ℕ} {res : ℤ} (hc : o.uvWrite conn res = some o') :
    o'.Inv := by
  unfold Outbound.uvWrite at hc
  split at hc
  · next p recv hloop =>
    have hp := h.held p recv hloop
    have hadd : ∀ l : List WriteParam, (∀ q ∈ l, Sized q) → ∀ q ∈ l ++ [p], Sized q := by
      intro l hl q hq
      rcases List.mem_append.1 hq with hq | hq
      · exact hl q hq
      · rw [List.mem_singleton.1 hq]
        exact hp
    split_ifs at hc <;> cases hc
    · exact ⟨h.ring, h.size, h.accepted, h.list, hadd _ h.inflight, (fun p r hp => by cases hp),
        h.iret_le⟩
    · exact ⟨h.ring, h.size, h.accepted, hadd _ h.list, h.inflight, (fun p r hp => by cases hp),
        h.iret_le⟩
  · cases hc

theorem Inv.afterSend (h : o.Inv) {i : ℕ} {status : ℤ} (hc : o.afterSend i status = some o') :
    o'.Inv := by
  obtain ⟨p, hp, hc⟩ := Option.bind_eq_some_iff.1 hc
  have hmem : p ∈ o.inflight := List.mem_of_getElem? hp
  have herase : ∀ q ∈ o.inflight.eraseIdx i, Sized q := fun q hq =>
    h.inflight q (List.mem_of_mem_eraseIdx hq)
  have hrecycle : ({ o with inflight := o.inflight.eraseIdx i }.recycle p : Outbound B).Inv := by
    unfold recycle
    split_ifs
    · exact ⟨h.ring, h.size, h.accepted, h.list, herase, h.held, h.iret_le⟩
    · refine ⟨h.ring, h.size, h.accepted, fun q hq => ?_, herase, h.held, h.iret_le⟩
      rcases List.mem_append.1 hq with hq | hq
      · exact h.list q hq
      · rw [List.mem_singleton.1 hq]
        exact h.inflight p hmem
  split_ifs at hc <;> cases hc
  · exact hrecycle
  · exact hrecycle.frame _ fun p r => by simp

end Outbound

end SimpleUv
