import Mathlib.Logic.Function.Basic
import SimpleUv.Foundations.Transition

/-!
# The message queue of a thread

`CThreadMsgBase` keeps its messages in nodes on the heap that form a circular list, of which it knows
the last node `m_pMsgTail` only. Any thread appends a node under the lock (`PushBackMsg`); the consumer
takes the whole list under the lock and goes through it without (`DispatchThreadMsg`).

Here the heap is a map from addresses to blocks, and the address of a deleted node can be given out
again. A block carries the number of its allocation, which the code does not see. The consumer moves by
one `Line` of its loop at a time; between two of its steps other threads allocate nodes and append them,
and so do the handlers it calls. A read or write of memory that is not allocated leaves the model
`faulted`. What has been appended, handed to `OnDispatchMsg` and deleted so far is recorded.
-/

namespace SimpleUv

open Foundations

variable {A D : Type}

/-- What a call of `PushBackMsg` puts into a node, and `OnDispatchMsg` gets. -/
structure Msg (D : Type) where
  msgType : UInt32
  srcAddr : UInt32
  data : D
  deriving DecidableEq, Repr

/-- `NodeMsg`. -/
structure NodeMsg (A D : Type) extends Msg D where
  next : Option A
  deriving DecidableEq, Repr

/-- An allocated node, with the number of the allocation. -/
structure Block (A D : Type) where
  serial : ℕ
  node : NodeMsg A D

/-- The heap, as far as it holds nodes. -/
abbrev Heap (A D : Type) := A → Option (Block A D)

namespace Heap

variable (heap : Heap A D)

/-- The link of a node. -/
def next (a : A) : Option A := (heap a).bind fun b => b.node.next

/-- What stays the same in a node until it is deleted. -/
def entry (a : A) : Option (ℕ × Msg D) := (heap a).map fun b => (b.serial, b.node.toMsg)

/-- `a->next = link`. -/
def setNext [DecidableEq A] (a : A) (link : Option A) : Option (Heap A D) :=
  (heap a).map fun b =>
    Function.update heap a (some { b with node := { b.node with next := link } })

end Heap

/-- The lines of `DispatchThreadMsg`, where the consumer stands before it goes on. The handler is the
call of `OnDispatchMsg`, and `ret` is behind the outer loop. -/
inductive Line
  | outer | test | sleep | steal | inner | fetch | dispatch | handler | delete | ret
  deriving DecidableEq, Repr

/-- The condition of the outer loop of `DispatchThreadMsg`. -/
def outerCondition : Bool := true

/-- A queue with its producers and its consumer. `callers` are the nodes of those calls of `PushBackMsg`
that have still to append them; `first`, `next` and `req` are the variables of `DispatchThreadMsg`. -/
structure CThreadMsgBase (A D : Type) where
  heap : Heap A D
  blocks : ℕ
  callers : List A
  msgTail : Option A
  line : Line
  first : Option A
  next : Option A
  req : Option A
  pushed : List (ℕ × Msg D)
  dispatched : List (ℕ × Msg D)
  deleted : List ℕ
  faulted : Bool

/-- `create` is the part of `PushBackMsg` before the lock, with the link that the new node happens to
have; `push` is the part under the lock, and `run` the next step of the consumer. -/
inductive QueueEvent (A D : Type)
  | create (a : A) (msg : Msg D) (link : Option A)
  | push (a : A)
  | run

namespace CThreadMsgBase

/-- The queue when its consumer calls `DispatchThreadMsg`. -/
def start : CThreadMsgBase A D where
  heap _ := none
  blocks := 0
  callers := []
  msgTail := none
  line := .outer
  first := none
  next := none
  req := none
  pushed := []
  dispatched := []
  deleted := []
  faulted := false

variable [DecidableEq A] (s : CThreadMsgBase A D)

/-- `PushBackMsg` before the lock: a new node at an address that is free. -/
def createMsg (a : A) (msg : Msg D) (link : Option A) : CThreadMsgBase A D :=
  { s with
    heap := Function.update s.heap a (some ⟨s.blocks, ⟨msg, link⟩⟩)
    blocks := s.blocks + 1
    callers := s.callers ++ [a] }

/-- `PushBackMsg` under the lock. -/
def pushBackMsg (msg : A) : Option (CThreadMsgBase A D) := do
  let entry ← s.heap.entry msg
  let heap ← match s.msgTail with
    | none => s.heap.setNext msg (some msg)
    | some tail => do
      let last ← s.heap tail
      let heap ← s.heap.setNext msg last.node.next
      heap.setNext tail (some msg)
  some { s with
    heap := heap
    callers := s.callers.erase msg
    msgTail := some msg
    pushed := s.pushed ++ [entry] }

/-- The next step of `DispatchThreadMsg`. -/
def dispatchThreadMsg : Option (CThreadMsgBase A D) :=
  match s.line with
  | .outer => some { s with line := if outerCondition then .test else .ret }
  | .test => some { s with line := if s.msgTail = none then .sleep else .steal }
  | .sleep => some { s with line := .outer }
  | .steal => do
    let tail ← s.msgTail
    let last ← s.heap tail
    some { s with
      first := last.node.next, next := last.node.next, msgTail := none, line := .inner }
  | .inner => some { s with line := if s.next = none then .outer else .fetch }
  | .fetch => do
    let req ← s.next
    let b ← s.heap req
    some { s with
      req := some req
      next := if b.node.next ≠ s.first then b.node.next else none
      line := .dispatch }
  | .dispatch => do
    let req ← s.req
    let entry ← s.heap.entry req
    some { s with dispatched := s.dispatched ++ [entry], line := .handler }
  | .handler => some { s with line := .delete }
  | .delete => do
    let req ← s.req
    let b ← s.heap req
    some { s with
      heap := Function.update s.heap req none
      req := none
      deleted := s.deleted ++ [b.serial]
      line := .inner }
  | .ret => some s

/-- What a part of the code does, or the fault it meets. -/
def run (r : Option (CThreadMsgBase A D)) : CThreadMsgBase A D := r.getD { s with faulted := true }

/-- One step of a producer or of the consumer. -/
def step : QueueEvent A D → Option (CThreadMsgBase A D)
  | .create a msg link => if (s.heap a).isNone then some (s.createMsg a msg link) else none
  | .push a => if a ∈ s.callers then some (s.run (s.pushBackMsg a)) else none
  | .run => some (s.run s.dispatchThreadMsg)

end CThreadMsgBase

/-! ## The lines of the consumer -/

namespace CThreadMsgBase

variable [DecidableEq A] {s : CThreadMsgBase A D}

theorem dispatchThreadMsg_outer (h : s.line = .outer) :
    s.dispatchThreadMsg = some { s with line := .test } := by
  simp only [dispatchThreadMsg, h, outerCondition, if_true]

theorem dispatchThreadMsg_test (h : s.line = .test) :
    s.dispatchThreadMsg = some { s with line := if s.msgTail = none then .sleep else .steal } := by
  simp only [dispatchThreadMsg, h]

theorem dispatchThreadMsg_sleep (h : s.line = .sleep) :
    s.dispatchThreadMsg = some { s with line := .outer } := by
  simp only [dispatchThreadMsg, h]

theorem dispatchThreadMsg_inner (h : s.line = .inner) :
    s.dispatchThreadMsg = some { s with line := if s.next = none then .outer else .fetch } := by
  simp only [dispatchThreadMsg, h]

theorem dispatchThreadMsg_handler (h : s.line = .handler) :
    s.dispatchThreadMsg = some { s with line := .delete } := by
  simp only [dispatchThreadMsg, h]

/-- What a step of the consumer does. -/
inductive Ran (s : CThreadMsgBase A D) : CThreadMsgBase A D → Prop
  | outer (h : s.line = .outer) : Ran s { s with line := .test }
  | test (h : s.line = .test) :
      Ran s { s with line := if s.msgTail = none then .sleep else .steal }
  | sleep (h : s.line = .sleep) : Ran s { s with line := .outer }
  | steal {tail : A} {last : Block A D} (h : s.line = .steal) (htail : s.msgTail = some tail)
      (hlast : s.heap tail = some last) :
      Ran s { s with first := last.node.next, next := last.node.next, msgTail := none, line := .inner }
  | inner (h : s.line = .inner) :
      Ran s { s with line := if s.next = none then .outer else .fetch }
  | fetch {req : A} {b : Block A D} (h : s.line = .fetch) (hnext : s.next = some req)
      (hb : s.heap req = some b) :
      Ran s { s with
        req := some req, next := if b.node.next ≠ s.first then b.node.next else none, line := .dispatch }
  | dispatch {req : A} {e : ℕ × Msg D} (h : s.line = .dispatch) (hreq : s.req = some req)
      (he : s.heap.entry req = some e) :
      Ran s { s with dispatched := s.dispatched ++ [e], line := .handler }
  | handler (h : s.line = .handler) : Ran s { s with line := .delete }
  | delete {req : A} {b : Block A D} (h : s.line = .delete) (hreq : s.req = some req)
      (hb : s.heap req = some b) :
      Ran s { s with
        heap := Function.update s.heap req none
        req := none
        deleted := s.deleted ++ [b.serial]
        line := .inner }
  | ret (h : s.line = .ret) : Ran s s

theorem dispatchThreadMsg_cases {t : CThreadMsgBase A D} (hrun : s.dispatchThreadMsg = some t) :
    s.Ran t := by
  cases hline : s.line with
  | outer =>
    rw [dispatchThreadMsg_outer hline] at hrun
    exact Option.some.inj hrun ▸ .outer hline
  | test =>
    rw [dispatchThreadMsg_test hline] at hrun
    exact Option.some.inj hrun ▸ .test hline
  | sleep =>
    rw [dispatchThreadMsg_sleep hline] at hrun
    exact Option.some.inj hrun ▸ .sleep hline
  | steal =>
    simp only [dispatchThreadMsg, hline, Option.bind_eq_bind, Option.bind_eq_some_iff] at hrun
    obtain ⟨tail, htail, last, hlast, hrun⟩ := hrun
    exact Option.some.inj hrun ▸ .steal hline htail hlast
  | inner =>
    rw [dispatchThreadMsg_inner hline] at hrun
    exact Option.some.inj hrun ▸ .inner hline
  | fetch =>
    simp only [dispatchThreadMsg, hline, Option.bind_eq_bind, Option.bind_eq_some_iff] at hrun
    obtain ⟨req, hnext, b, hb, hrun⟩ := hrun
    exact Option.some.inj hrun ▸ .fetch hline hnext hb
  | dispatch =>
    simp only [dispatchThreadMsg, hline, Option.bind_eq_bind, Option.bind_eq_some_iff] at hrun
    obtain ⟨req, hreq, e, he, hrun⟩ := hrun
    exact Option.some.inj hrun ▸ .dispatch hline hreq he
  | handler =>
    rw [dispatchThreadMsg_handler hline] at hrun
    exact Option.some.inj hrun ▸ .handler hline
  | delete =>
    simp only [dispatchThreadMsg, hline, Option.bind_eq_bind, Option.bind_eq_some_iff] at hrun
    obtain ⟨req, hreq, b, hb, hrun⟩ := hrun
    exact Option.some.inj hrun ▸ .delete hline hreq hb
  | ret =>
    simp only [dispatchThreadMsg, hline] at hrun
    exact Option.some.inj hrun ▸ .ret hline

end CThreadMsgBase

/-! ## The heap -/

namespace Heap

variable {heap heap' : Heap A D} {a : A} {link : Option A} {b : Block A D} {e : ℕ × Msg D}

theorem next_of_eq (h : heap a = some b) : heap.next a = b.node.next := by
  rw [next, h, Option.bind_some]

theorem exists_of_entry (h : heap.entry a = some e) :
    ∃ b, heap a = some b ∧ b.serial = e.1 := by
  obtain ⟨b, hb, rfl⟩ := Option.map_eq_some_iff.1 h
  exact ⟨b, hb, rfl⟩

variable [DecidableEq A] {x : A} {o : Option (Block A D)}

theorem entry_update_of_ne (h : x ≠ a) : Heap.entry (Function.update heap a o) x = heap.entry x := by
  rw [entry, entry, Function.update_of_ne h]

theorem next_update_of_ne (h : x ≠ a) : Heap.next (Function.update heap a o) x = heap.next x := by
  rw [next, next, Function.update_of_ne h]

/-- A link changes nothing else. -/
theorem setNext_eq (h : heap.entry a = some e) (link : Option A) :
    ∃ heap', heap.setNext a link = some heap' ∧
      heap'.next = Function.update heap.next a link ∧ heap'.entry = heap.entry := by
  obtain ⟨b, hb, -⟩ := Option.map_eq_some_iff.1 h
  refine ⟨_, by rw [setNext, hb, Option.map_some], ?_, ?_⟩
  · funext x
    by_cases hx : x = a
    · subst hx
      simp only [next, Function.update_self, Option.bind_some]
    · simp only [next, Function.update_of_ne hx]
  · funext x
    by_cases hx : x = a
    · subst hx
      simp only [entry, Function.update_self, hb, Option.map_some]
    · simp only [entry, Function.update_of_ne hx]

end Heap

end SimpleUv
