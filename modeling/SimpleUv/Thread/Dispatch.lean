import Mathlib.Data.List.Nodup
import SimpleUv.Foundations.Ring
import SimpleUv.Thread.MsgQueue

/-!
# Every message once, in order

Between the steps of its consumer and its producers the queue is made of the messages that are done, the
node that the consumer holds, the rest of the list it has taken, and the ring that `m_pMsgTail` closes
(`View`). In this order they are the messages appended so far. The rest is linked to its end, and its
last link is the address `first`; that node may be deleted and its address in use again, but no other
node of the rest has this address. A step moves nodes from one part to the next (`Represents.step`), so
that messages are handed over in the order of the appends, and all those taken before the next list is
taken (`dispatched_once`).
-/

namespace SimpleUv

open Foundations

variable {A D : Type}

/-- The parts of a queue: what is done, and the nodes held, taken and waiting, with what is in them. -/
structure View (A D : Type) where
  done : List (ℕ × Msg D)
  held : List (A × ℕ × Msg D)
  rest : List (A × ℕ × Msg D)
  ring : List (A × ℕ × Msg D)

namespace View

variable (v : View A D)

/-- The nodes of the queue. -/
def nodes : List (A × ℕ × Msg D) := v.held ++ v.rest ++ v.ring

/-- What the consumer has taken so far. -/
def taken : List (ℕ × Msg D) := v.done ++ (v.held ++ v.rest).map Prod.snd

/-- What has been appended so far. -/
def log : List (ℕ × Msg D) := v.done ++ v.nodes.map Prod.snd

theorem log_eq : v.log = v.taken ++ v.ring.map Prod.snd := by
  simp only [log, nodes, taken, List.map_append, List.append_assoc]

end View

namespace CThreadMsgBase

variable {s t : CThreadMsgBase A D} {v : View A D}

/-- What the consumer relies on at each line. -/
def Stands (s : CThreadMsgBase A D) (v : View A D) : Prop :=
  match s.line with
  | .outer | .test | .sleep => v.held = [] ∧ v.rest = []
  | .steal => v.held = [] ∧ v.rest = [] ∧ v.ring ≠ []
  | .inner => v.held = [] ∧ s.next = (v.rest.map Prod.fst).head?
  | .fetch => v.held = [] ∧ s.next = (v.rest.map Prod.fst).head? ∧ v.rest ≠ []
  | .dispatch | .handler | .delete =>
    s.next = (v.rest.map Prod.fst).head? ∧ ∃ node, v.held = [node] ∧ s.req = some node.1
  | .ret => False

/-- The part of the queue that has been handed over but is not deleted yet. -/
def handed (s : CThreadMsgBase A D) (v : View A D) : List (ℕ × Msg D) :=
  match s.line with
  | .handler | .delete => v.held.map Prod.snd
  | _ => []

/-- The numbers of the nodes. -/
structure Numbered (s : CThreadMsgBase A D) : Prop where
  bound : ∀ a e, s.heap.entry a = some e → e.1 < s.blocks
  unique : ∀ a b e f, s.heap.entry a = some e → s.heap.entry b = some f → e.1 = f.1 → a = b
  pushed : ∀ e ∈ s.pushed, e.1 < s.blocks
  nodup : (s.pushed.map Prod.fst).Nodup
  callers : ∀ a ∈ s.callers, ∃ e, s.heap.entry a = some e ∧ e.1 ∉ s.pushed.map Prod.fst

/-- **The representation of the queue.** -/
structure Represents (s : CThreadMsgBase A D) (v : View A D) : Prop where
  entries : ∀ node ∈ v.nodes, s.heap.entry node.1 = some node.2
  nodup : (v.nodes.map Prod.fst ++ s.callers).Nodup
  ring : Ring s.heap.next (v.ring.map Prod.fst)
  tail : s.msgTail = (v.ring.map Prod.fst).getLast?
  links : v.rest ≠ [] → ∃ f, s.first = some f ∧ Links s.heap.next (v.rest.map Prod.fst) f ∧
    f ∉ (v.rest.map Prod.fst).tail
  stands : s.Stands v
  pushed : s.pushed = v.log
  dispatched : s.dispatched = v.done ++ s.handed v
  deleted : s.deleted = v.done.map Prod.fst
  faulted : s.faulted = false

theorem numbered_start : (start : CThreadMsgBase A D).Numbered where
  bound := nofun
  unique := nofun
  pushed := nofun
  nodup := List.nodup_nil
  callers := nofun

theorem represents_start : (start : CThreadMsgBase A D).Represents ⟨[], [], [], []⟩ where
  entries := nofun
  nodup := List.nodup_nil
  ring := Ring.nil _
  tail := rfl
  links h := absurd rfl h
  stands := ⟨rfl, rfl⟩
  pushed := rfl
  dispatched := rfl
  deleted := rfl
  faulted := rfl

/-- The consumer does not rely on the end of the ring. -/
theorem Stands.concat (h : s.Stands v) (node : A × ℕ × Msg D) :
    s.Stands { v with ring := v.ring ++ [node] } := by
  unfold Stands at h ⊢
  cases hline : s.line <;> simp only [hline] at h ⊢ <;> try exact h
  exact ⟨h.1, h.2.1, List.append_ne_nil_of_right_ne_nil _ (List.cons_ne_nil node [])⟩

namespace Represents

theorem nodes_nodup (h : s.Represents v) : (v.nodes.map Prod.fst).Nodup :=
  (List.nodup_append.1 h.nodup).1

theorem not_mem_nodes {a : A} (h : s.Represents v) (ha : a ∈ s.callers) : a ∉ v.nodes.map Prod.fst :=
  fun hmem => (List.nodup_append.1 h.nodup).2.2 a hmem a ha rfl

/-- The rest and the ring have no node in common. -/
theorem not_mem_ring (h : s.Represents v) {x : A} (hx : x ∈ v.rest.map Prod.fst) :
    x ∉ v.ring.map Prod.fst := by
  have hnodup := h.nodes_nodup
  rw [View.nodes, List.map_append, List.map_append, List.nodup_append] at hnodup
  exact fun hmem => hnodup.2.2 x (List.mem_append_right _ hx) x hmem rfl

/-- The consumer goes to another line. -/
theorem goto (h : s.Represents v) {line : Line} (hstands : Stands { s with line := line } v)
    (hhanded : handed { s with line := line } v = s.handed v) :
    Represents { s with line := line } v :=
  ⟨h.entries, h.nodup, h.ring, h.tail, h.links, hstands, h.pushed, hhanded ▸ h.dispatched,
    h.deleted, h.faulted⟩

/-- What has been handed over is a beginning of what has been appended. -/
theorem dispatched_prefix (h : s.Represents v) : s.dispatched <+: s.pushed := by
  rw [h.dispatched, h.pushed, View.log, View.nodes, List.prefix_append_right_inj]
  have hheld : v.held.map Prod.snd <+: (v.held ++ v.rest ++ v.ring).map Prod.snd := by
    rw [List.append_assoc, List.map_append]
    exact List.prefix_append _ _
  unfold handed
  split
  · exact hheld
  · exact hheld
  · exact List.nil_prefix

/-- What has been deleted is a beginning of what has been appended. -/
theorem deleted_prefix (h : s.Represents v) : s.deleted <+: s.pushed.map Prod.fst := by
  rw [h.deleted, h.pushed, View.log, List.map_append]
  exact List.prefix_append _ _

/-- When the consumer takes a ring, everything it took before is handed over and deleted. -/
theorem taken_of_steal (h : s.Represents v) (hline : s.line = .steal) :
    s.dispatched = v.taken ∧ s.deleted = v.taken.map Prod.fst := by
  have hstands := h.stands
  simp only [Stands, hline] at hstands
  obtain ⟨hheld, hrest, -⟩ := hstands
  have htaken : v.taken = v.done := by
    rw [View.taken, hheld, hrest, List.append_nil, List.map_nil, List.append_nil]
  rw [htaken, h.deleted, h.dispatched, handed, hline, List.append_nil]
  exact ⟨rfl, rfl⟩

end Represents

/-- The pointers that are followed belong to nodes that are not deleted, even when their addresses have
been used before: `m_pMsgTail` to the last message appended, and the one that the consumer follows to the
first message that is not deleted. -/
structure Live (s : CThreadMsgBase A D) : Prop where
  msgTail : ∀ a, s.msgTail = some a → s.heap.entry a = s.pushed.getLast?
  next : s.line = .fetch → ∀ a, s.next = some a → s.heap.entry a = s.pushed[s.deleted.length]?
  req : s.line = .dispatch ∨ s.line = .handler ∨ s.line = .delete →
    ∀ a, s.req = some a → s.heap.entry a = s.pushed[s.deleted.length]?

/-- The first node of the queue has the first message that is not deleted. -/
theorem Represents.entry_head (h : s.Represents v) {node : A × ℕ × Msg D}
    {nodes : List (A × ℕ × Msg D)} (hnodes : v.nodes = node :: nodes) :
    s.heap.entry node.1 = s.pushed[s.deleted.length]? := by
  rw [h.entries node (hnodes ▸ List.mem_cons_self), h.pushed, View.log, h.deleted, hnodes,
    List.length_map, List.getElem?_append_right le_rfl, Nat.sub_self, List.map_cons,
    List.getElem?_cons_zero]

theorem Represents.live (h : s.Represents v) : s.Live where
  msgTail a ha := by
    rw [h.tail, List.getLast?_map] at ha
    obtain ⟨node, hnode, rfl⟩ := Option.map_eq_some_iff.1 ha
    have hmem : node ∈ v.nodes := List.mem_append_right _ (List.mem_of_getLast? hnode)
    rw [h.entries node hmem, h.pushed, View.log_eq, List.getLast?_append, List.getLast?_map, hnode]
    rfl
  next hline a ha := by
    have hstands := h.stands
    simp only [Stands, hline] at hstands
    obtain ⟨hheld, hnext, hrest⟩ := hstands
    obtain ⟨node, rest, hcons⟩ := List.exists_cons_of_ne_nil hrest
    rw [hnext, hcons] at ha
    cases ha
    exact h.entry_head (by rw [View.nodes, hheld, hcons, List.nil_append, List.cons_append])
  req hline a ha := by
    have hstands : ∃ node, v.held = [node] ∧ s.req = some node.1 := by
      have hstands := h.stands
      rcases hline with hline | hline | hline <;> simp only [Stands, hline] at hstands <;>
        exact hstands.2
    obtain ⟨node, hheld, hreq⟩ := hstands
    obtain rfl : node.1 = a := Option.some.inj (hreq.symm.trans ha)
    exact h.entry_head (by rw [View.nodes, hheld, List.singleton_append, List.cons_append])

/-- The queue is represented, and the consumer has taken `log`. -/
def Sound (log : List (ℕ × Msg D)) (s : CThreadMsgBase A D) : Prop :=
  s.Numbered ∧ ∃ v, s.Represents v ∧ log <+: v.taken

theorem sound_start : (start : CThreadMsgBase A D).Sound [] :=
  ⟨numbered_start, _, represents_start, List.prefix_rfl⟩

variable [DecidableEq A] {a : A} {e : ℕ × Msg D}

/-! ## Appending -/

theorem pushBackMsg_empty (ha : s.heap.entry a = some e) (htail : s.msgTail = none) :
    ∃ heap, s.pushBackMsg a = some { s with
        heap := heap, callers := s.callers.erase a, msgTail := some a, pushed := s.pushed ++ [e] } ∧
      heap.next = Function.update s.heap.next a (some a) ∧ heap.entry = s.heap.entry := by
  obtain ⟨heap, hset, hnext, hentry⟩ := Heap.setNext_eq ha (some a)
  refine ⟨heap, ?_, hnext, hentry⟩
  simp only [pushBackMsg, ha, htail, hset, Option.bind_eq_bind, Option.bind_some]

theorem pushBackMsg_concat {tail : A} {e' : ℕ × Msg D} (ha : s.heap.entry a = some e)
    (htail : s.msgTail = some tail) (ht : s.heap.entry tail = some e') :
    ∃ heap, s.pushBackMsg a = some { s with
        heap := heap, callers := s.callers.erase a, msgTail := some a, pushed := s.pushed ++ [e] } ∧
      heap.next = Function.update (Function.update s.heap.next a (s.heap.next tail)) tail (some a) ∧
      heap.entry = s.heap.entry := by
  obtain ⟨last, hlast, -⟩ := Heap.exists_of_entry ht
  obtain ⟨heap₁, hset₁, hnext₁, hentry₁⟩ := Heap.setNext_eq ha last.node.next
  obtain ⟨heap₂, hset₂, hnext₂, hentry₂⟩ := Heap.setNext_eq ((congrFun hentry₁ tail).trans ht) (some a)
  refine ⟨heap₂, ?_, ?_, hentry₂.trans hentry₁⟩
  · simp only [pushBackMsg, ha, htail, hlast, hset₁, hset₂, Option.bind_eq_bind, Option.bind_some]
  · rw [hnext₂, hnext₁, Heap.next_of_eq hlast]

namespace Represents

/-- **Under the lock** the new node becomes the last one of the ring, and the rest keeps its links. -/
theorem pushBackMsg (h : s.Represents v) (ha : a ∈ s.callers) (he : s.heap.entry a = some e) :
    ∃ heap, s.pushBackMsg a = some { s with
        heap := heap, callers := s.callers.erase a, msgTail := some a, pushed := s.pushed ++ [e] } ∧
      heap.entry = s.heap.entry ∧ Ring heap.next ((v.ring ++ [(a, e)]).map Prod.fst) ∧
      ∀ x ∈ v.rest.map Prod.fst, heap.next x = s.heap.next x := by
  have hfresh := h.not_mem_nodes ha
  have hrest : ∀ x ∈ v.rest.map Prod.fst, x ≠ a := by
    rintro x hx rfl
    exact hfresh (by simp [View.nodes, hx])
  rcases v.ring.eq_nil_or_concat' with hring | ⟨ring, ⟨tail, e'⟩, hring⟩
  · have htail : s.msgTail = none := by rw [h.tail, hring]; rfl
    obtain ⟨heap, hpush, hnext, hentry⟩ := pushBackMsg_empty he htail
    refine ⟨heap, hpush, hentry, ?_, fun x hx => ?_⟩
    · rw [hring]
      exact Ring.singleton (by rw [hnext, Function.update_self])
    · rw [hnext, Function.update_of_ne (hrest x hx)]
  · have htail : s.msgTail = some tail := by rw [h.tail, hring]; simp
    have hmem : (tail, e') ∈ v.nodes := by simp [View.nodes, hring]
    obtain ⟨heap, hpush, hnext, hentry⟩ := pushBackMsg_concat he htail (h.entries _ hmem)
    have hold := h.ring
    rw [hring, List.map_append] at hold
    have hnodup : (ring.map Prod.fst ++ [tail]).Nodup := by
      have hnodup := h.nodes_nodup
      rw [View.nodes, List.map_append, hring] at hnodup
      simpa only [List.map_append, List.map_cons, List.map_nil] using (List.nodup_append.1 hnodup).2.1
    refine ⟨heap, hpush, hentry, ?_, fun x hx => ?_⟩
    · rw [hnext, hring, List.map_append, List.map_append]
      refine hold.concat (fun ht => ?_) fun hmem => hfresh ?_
      · exact (List.nodup_append.1 hnodup).2.2 tail ht tail (List.mem_singleton_self tail) rfl
      · rw [View.nodes, hring, List.map_append]
        exact List.mem_append_right _ (by rwa [List.map_append])
    · have hxt : x ≠ tail := by
        rintro rfl
        exact h.not_mem_ring hx (by simp [hring])
      rw [hnext, Function.update_of_ne hxt, Function.update_of_ne (hrest x hx)]

/-- `PushBackMsg` appends the message. -/
theorem push (h : s.Represents v) (ha : a ∈ s.callers) (he : s.heap.entry a = some e) :
    ∃ t, s.pushBackMsg a = some t ∧ t.Represents { v with ring := v.ring ++ [(a, e)] } := by
  obtain ⟨heap, hpush, hentry, hring, hrest⟩ := h.pushBackMsg ha he
  refine ⟨_, hpush, ?_, ?_, hring, ?_, ?_, h.stands.concat _, ?_, h.dispatched, h.deleted, h.faulted⟩
  · intro node hnode
    show heap.entry node.1 = some node.2
    rw [hentry]
    rcases List.mem_append.1 hnode with hnode | hnode
    · exact h.entries node (List.mem_append_left _ hnode)
    · rcases List.mem_append.1 hnode with hnode | hnode
      · exact h.entries node (List.mem_append_right _ hnode)
      · rw [List.mem_singleton.1 hnode]
        exact he
  · have hperm : (v.nodes.map Prod.fst ++ s.callers).Perm
        (v.nodes.map Prod.fst ++ a :: s.callers.erase a) :=
      (List.perm_cons_erase ha).append_left _
    have hnodup := hperm.nodup_iff.1 h.nodup
    show (List.map Prod.fst (v.held ++ v.rest ++ (v.ring ++ [(a, e)])) ++ s.callers.erase a).Nodup
    rwa [← List.append_assoc, List.map_append, List.append_assoc]
  · show some a = _
    simp
  · intro hne
    obtain ⟨f, hf, hlinks, hnot⟩ := h.links hne
    exact ⟨f, hf, hlinks.congr hrest, hnot⟩
  · show s.pushed ++ [e] = _
    rw [h.pushed]
    simp only [View.log, View.nodes, List.map_append, List.append_assoc, List.map_cons, List.map_nil]

/-- A new node is not part of the queue yet. -/
theorem create (h : s.Represents v) (hn : s.Numbered) (hfree : s.heap a = none) (msg : Msg D)
    (link : Option A) : (s.createMsg a msg link).Represents v := by
  have hne : ∀ x e, s.heap.entry x = some e → x ≠ a := by
    rintro x e hx rfl
    rw [Heap.entry, hfree] at hx
    cases hx
  have hnodes : ∀ x ∈ v.nodes.map Prod.fst, x ≠ a := by
    intro x hx
    obtain ⟨node, hnode, rfl⟩ := List.mem_map.1 hx
    exact hne _ _ (h.entries node hnode)
  have hnext : ∀ x ∈ v.nodes.map Prod.fst, (s.createMsg a msg link).heap.next x = s.heap.next x :=
    fun x hx => Heap.next_update_of_ne (hnodes x hx)
  refine ⟨fun node hnode => ?_, ?_, ?_, h.tail, ?_, h.stands, h.pushed, h.dispatched, h.deleted, h.faulted⟩
  · rw [← h.entries node hnode]
    exact Heap.entry_update_of_ne (hnodes _ (List.mem_map_of_mem hnode))
  · show (v.nodes.map Prod.fst ++ (s.callers ++ [a])).Nodup
    rw [← List.append_assoc]
    refine List.nodup_append.2 ⟨h.nodup, List.pairwise_singleton _ a, fun x hx y hy => ?_⟩
    rw [List.mem_singleton.1 hy]
    rcases List.mem_append.1 hx with hx | hx
    · exact hnodes x hx
    · obtain ⟨e, he, -⟩ := hn.callers x hx
      exact hne x e he
  · exact h.ring.congr fun x hx => hnext x (by
      rw [View.nodes, List.map_append]
      exact List.mem_append_right _ hx)
  · intro hrest
    obtain ⟨f, hf, hlinks, hnot⟩ := h.links hrest
    refine ⟨f, hf, hlinks.congr fun x hx => hnext x ?_, hnot⟩
    rw [View.nodes, List.map_append, List.map_append]
    exact List.mem_append_left _ (List.mem_append_right _ hx)

/-! ## Dispatching -/

/-- **Under the lock** the consumer takes the ring, and what it has taken so far is all there is. -/
theorem steal (h : s.Represents v) (hline : s.line = .steal) :
    ∃ t v', s.dispatchThreadMsg = some t ∧ t.Represents v' ∧ v'.taken = s.pushed ∧
      t.heap = s.heap := by
  have hstands := h.stands
  simp only [Stands, hline] at hstands
  obtain ⟨hheld, hrest, hne⟩ := hstands
  obtain ⟨ring, ⟨tail, e⟩, hring⟩ := (v.ring.eq_nil_or_concat').resolve_left hne
  have htail : s.msgTail = some tail := by rw [h.tail, hring]; simp
  have hmem : (tail, e) ∈ v.nodes := by simp [View.nodes, hring]
  obtain ⟨last, hlast, -⟩ := Heap.exists_of_entry (h.entries _ hmem)
  have hold := h.ring
  rw [hring, List.map_append] at hold
  obtain ⟨hlinks, hfirst⟩ := Ring.concat_iff.1 hold
  have hnext : last.node.next = (v.ring.map Prod.fst).head? := by
    rw [← Heap.next_of_eq hlast, hfirst, hring]
    cases ring <;> rfl
  have hnodup := h.nodes_nodup
  rw [View.nodes, hheld, hrest, List.nil_append, List.nil_append] at hnodup
  have hstep : s.dispatchThreadMsg = some { s with
      first := last.node.next, next := last.node.next, msgTail := none, line := .inner } := by
    simp only [dispatchThreadMsg, hline, htail, hlast, Option.bind_eq_bind, Option.bind_some]
  refine ⟨_, ⟨v.done, [], v.ring, []⟩, hstep, ?_, ?_, rfl⟩
  · refine ⟨?_, ?_, Ring.nil _, rfl, fun _ => ?_, ⟨rfl, hnext⟩, ?_, ?_, h.deleted, h.faulted⟩
    · intro node hnode
      refine h.entries node ?_
      simpa only [View.nodes, hheld, hrest, List.nil_append, List.append_nil] using hnode
    · simpa only [View.nodes, hheld, hrest, List.nil_append, List.append_nil] using h.nodup
    · obtain ⟨f, hf⟩ : ∃ f, (v.ring.map Prod.fst).head? = some f := by
        rw [hring]
        cases ring <;> exact ⟨_, rfl⟩
      refine ⟨f, hnext.trans hf, h.ring f hf, ?_⟩
      obtain ⟨rest, hlist⟩ := List.head?_eq_some_iff.1 hf
      rw [hlist] at hnodup ⊢
      exact (List.nodup_cons.1 hnodup).1
    · rw [show _ = s.pushed from rfl, h.pushed]
      simp only [View.log, View.nodes, hheld, hrest, List.nil_append, List.append_nil]
    · rw [show _ = s.dispatched from rfl, h.dispatched, handed, hline]
      rfl
  · rw [h.pushed]
    simp only [View.taken, View.log, View.nodes, hheld, hrest, List.nil_append]

/-- The next node of the rest is held, and the variable `next` is null behind the last one. -/
theorem fetch (h : s.Represents v) (hline : s.line = .fetch) :
    ∃ t v', s.dispatchThreadMsg = some t ∧ t.Represents v' ∧ v'.taken = v.taken ∧ t.heap = s.heap := by
  have hstands := h.stands
  simp only [Stands, hline] at hstands
  obtain ⟨hheld, hnext, hne⟩ := hstands
  obtain ⟨node, rest, hrest⟩ := List.exists_cons_of_ne_nil hne
  obtain ⟨f, hf, hlinks, hnot⟩ := h.links hne
  rw [hrest, List.map_cons] at hnext hlinks hnot
  have hnodes : View.nodes ⟨v.done, [node], rest, v.ring⟩ = v.nodes := by
    simp only [View.nodes, hheld, hrest, List.nil_append, List.singleton_append]
  obtain ⟨b, hb, -⟩ := Heap.exists_of_entry (h.entries node (by
    rw [← hnodes]
    exact List.mem_cons_self))
  have hlink : (if b.node.next ≠ s.first then b.node.next else none) = (rest.map Prod.fst).head? := by
    rw [← Heap.next_of_eq hb, hf]
    exact hlinks.head hnot
  have hstep : s.dispatchThreadMsg = some { s with
      req := some node.1
      next := if b.node.next ≠ s.first then b.node.next else none
      line := .dispatch } := by
    simp only [dispatchThreadMsg, hline, hnext, List.head?_cons, hb, Option.bind_eq_bind,
      Option.bind_some]
  refine ⟨_, ⟨v.done, [node], rest, v.ring⟩, hstep, ?_, ?_, rfl⟩
  · refine ⟨hnodes ▸ h.entries, hnodes ▸ h.nodup, h.ring, h.tail, fun hne => ?_,
      ⟨hlink, node, rfl, rfl⟩, ?_, ?_, h.deleted, h.faulted⟩
    · refine ⟨f, hf, (Links.cons_iff.1 hlinks).2, fun hmem => hnot (List.mem_of_mem_tail hmem)⟩
    · rw [show _ = s.pushed from rfl, h.pushed, View.log, View.log, hnodes]
    · rw [show _ = s.dispatched from rfl, h.dispatched, handed, hline]
      rfl
  · simp only [View.taken, hheld, hrest, List.nil_append, List.singleton_append]

/-- The message of the node that is held is handed over. -/
theorem dispatch (h : s.Represents v) (hline : s.line = .dispatch) :
    ∃ t, s.dispatchThreadMsg = some t ∧ t.Represents v ∧ t.heap = s.heap := by
  have hstands := h.stands
  simp only [Stands, hline] at hstands
  obtain ⟨hnext, node, hheld, hreq⟩ := hstands
  have hentry := h.entries node (by simp [View.nodes, hheld])
  have hstep : s.dispatchThreadMsg = some { s with
      dispatched := s.dispatched ++ [node.2], line := .handler } := by
    simp only [dispatchThreadMsg, hline, hreq, hentry, Option.bind_eq_bind, Option.bind_some]
  refine ⟨_, hstep, ⟨h.entries, h.nodup, h.ring, h.tail, h.links, ⟨hnext, node, hheld, hreq⟩,
    h.pushed, ?_, h.deleted, h.faulted⟩, rfl⟩
  show s.dispatched ++ [node.2] = v.done ++ v.held.map Prod.snd
  rw [h.dispatched, handed, hline, hheld, List.append_nil]
  rfl

/-- **The node that is held is deleted**, and no other one. -/
theorem delete (h : s.Represents v) (hline : s.line = .delete) :
    ∃ t v' a, s.dispatchThreadMsg = some t ∧ t.Represents v' ∧ v'.taken = v.taken ∧
      a ∉ s.callers ∧ t.heap = Function.update s.heap a none := by
  have hstands := h.stands
  simp only [Stands, hline] at hstands
  obtain ⟨hnext, node, hheld, hreq⟩ := hstands
  have hentry := h.entries node (by simp [View.nodes, hheld])
  obtain ⟨b, hb, hserial⟩ := Heap.exists_of_entry hentry
  have hnodes : v.nodes = node :: View.nodes ⟨v.done ++ [node.2], [], v.rest, v.ring⟩ := by
    simp only [View.nodes, hheld, List.nil_append, List.cons_append]
  have hnodup := h.nodup
  rw [hnodes, List.map_cons, List.cons_append, List.nodup_cons, List.mem_append, not_or] at hnodup
  obtain ⟨⟨hnot, hcallers⟩, hnodup⟩ := hnodup
  have hne : ∀ x ∈ v.rest.map Prod.fst ++ v.ring.map Prod.fst, x ≠ node.1 := by
    rintro x hx rfl
    exact hnot (by simpa only [View.nodes, List.nil_append, List.map_append] using hx)
  have hlinks : ∀ x ∈ v.rest.map Prod.fst ++ v.ring.map Prod.fst,
      Heap.next (Function.update s.heap node.1 none) x = s.heap.next x :=
    fun x hx => Heap.next_update_of_ne (hne x hx)
  have hstep : s.dispatchThreadMsg = some { s with
      heap := Function.update s.heap node.1 none
      req := none
      deleted := s.deleted ++ [b.serial]
      line := .inner } := by
    simp only [dispatchThreadMsg, hline, hreq, hb, Option.bind_eq_bind, Option.bind_some]
  refine ⟨_, ⟨v.done ++ [node.2], [], v.rest, v.ring⟩, node.1, hstep, ?_, ?_, hcallers, rfl⟩
  · refine ⟨fun x hx => ?_, hnodup, ?_, h.tail, fun hrest => ?_, ⟨rfl, hnext⟩, ?_, ?_, ?_, h.faulted⟩
    · rw [← h.entries x (hnodes ▸ List.mem_cons_of_mem node hx)]
      refine Heap.entry_update_of_ne fun heq => hnot ?_
      rw [← heq]
      exact List.mem_map_of_mem hx
    · exact h.ring.congr fun x hx => hlinks x (List.mem_append_right _ hx)
    · obtain ⟨f, hf, hrest, hend⟩ := h.links hrest
      exact ⟨f, hf, hrest.congr fun x hx => hlinks x (List.mem_append_left _ hx), hend⟩
    · rw [show _ = s.pushed from rfl, h.pushed, View.log, View.log, hnodes, List.map_cons,
        List.append_assoc, List.singleton_append]
    · rw [show _ = s.dispatched from rfl, h.dispatched, handed, hline, hheld]
      exact (List.append_nil _).symm
    · show s.deleted ++ [b.serial] = _
      rw [h.deleted, hserial, List.map_append, List.map_cons, List.map_nil]
  · simp only [View.taken, hheld, List.nil_append, List.append_assoc, List.map_cons,
      List.singleton_append]

/-- **A step of the consumer** meets no fault. It keeps what has been taken, and leaves the nodes of the
producers alone. -/
theorem run (h : s.Represents v) :
    ∃ t v', s.dispatchThreadMsg = some t ∧ t.Represents v' ∧ v.taken <+: v'.taken ∧
      (t.heap = s.heap ∨ ∃ a, a ∉ s.callers ∧ t.heap = Function.update s.heap a none) := by
  have hstands := h.stands
  unfold Stands at hstands
  cases hline : s.line <;> simp only [hline] at hstands
  case outer =>
    exact ⟨_, v, dispatchThreadMsg_outer hline, h.goto hstands (by simp only [handed, hline]),
      List.prefix_rfl, .inl rfl⟩
  case test =>
    refine ⟨_, v, dispatchThreadMsg_test hline, ?_, List.prefix_rfl, .inl rfl⟩
    split_ifs with htail
    · exact h.goto hstands (by simp only [handed, hline])
    · refine h.goto ⟨hstands.1, hstands.2, fun hring => htail ?_⟩ (by simp only [handed, hline])
      rw [h.tail, hring]
      rfl
  case sleep =>
    exact ⟨_, v, dispatchThreadMsg_sleep hline, h.goto hstands (by simp only [handed, hline]),
      List.prefix_rfl, .inl rfl⟩
  case steal =>
    obtain ⟨t, v', hstep, ht, htaken, hheap⟩ := h.steal hline
    refine ⟨t, v', hstep, ht, ?_, .inl hheap⟩
    rw [htaken, h.pushed, View.log_eq]
    exact List.prefix_append _ _
  case inner =>
    refine ⟨_, v, dispatchThreadMsg_inner hline, ?_, List.prefix_rfl, .inl rfl⟩
    split_ifs with hnext
    · refine h.goto ⟨hstands.1, ?_⟩ (by simp only [handed, hline])
      simpa using hstands.2.symm.trans hnext
    · refine h.goto ⟨hstands.1, hstands.2, fun hrest => hnext ?_⟩ (by simp only [handed, hline])
      rw [hstands.2, hrest]
      rfl
  case fetch =>
    obtain ⟨t, v', hstep, ht, htaken, hheap⟩ := h.fetch hline
    exact ⟨t, v', hstep, ht, htaken ▸ List.prefix_rfl, .inl hheap⟩
  case dispatch =>
    obtain ⟨t, hstep, ht, hheap⟩ := h.dispatch hline
    exact ⟨t, v, hstep, ht, List.prefix_rfl, .inl hheap⟩
  case handler =>
    exact ⟨_, v, dispatchThreadMsg_handler hline, h.goto hstands (by simp only [handed, hline]),
      List.prefix_rfl, .inl rfl⟩
  case delete =>
    obtain ⟨t, v', a, hstep, ht, htaken, ha, hheap⟩ := h.delete hline
    exact ⟨t, v', hstep, ht, htaken ▸ List.prefix_rfl, .inr ⟨a, ha, hheap⟩⟩

end Represents

/-! ## The numbers -/

/-- The consumer neither allocates nor appends. -/
theorem dispatchThreadMsg_frame (hstep : s.dispatchThreadMsg = some t) :
    t.blocks = s.blocks ∧ t.pushed = s.pushed ∧ t.callers = s.callers := by
  cases dispatchThreadMsg_cases hstep <;> exact ⟨rfl, rfl, rfl⟩

namespace Numbered

theorem create (hn : s.Numbered) (hfree : s.heap a = none) (msg : Msg D) (link : Option A) :
    (s.createMsg a msg link).Numbered := by
  have hself : (s.createMsg a msg link).heap.entry a = some (s.blocks, msg) := by
    simp only [Heap.entry, createMsg, Function.update_self, Option.map_some]
  have hother : ∀ {x}, x ≠ a → (s.createMsg a msg link).heap.entry x = s.heap.entry x :=
    fun hx => Heap.entry_update_of_ne hx
  refine ⟨fun x e hx => ?_, fun x y e f hx hy hef => ?_,
    fun e he => Nat.lt_succ_of_lt (hn.pushed e he), hn.nodup, fun x hx => ?_⟩
  · by_cases hxa : x = a
    · rw [hxa, hself] at hx
      cases hx
      exact Nat.lt_succ_self _
    · exact Nat.lt_succ_of_lt (hn.bound x e (hother hxa ▸ hx))
  · by_cases hxa : x = a <;> by_cases hya : y = a
    · rw [hxa, hya]
    · rw [hxa, hself] at hx
      cases hx
      exact absurd hef (hn.bound y f (hother hya ▸ hy)).ne'
    · rw [hya, hself] at hy
      cases hy
      exact absurd hef (hn.bound x e (hother hxa ▸ hx)).ne
    · exact hn.unique x y e f (hother hxa ▸ hx) (hother hya ▸ hy) hef
  · rcases List.mem_append.1 hx with hx | hx
    · obtain ⟨e, he, hnot⟩ := hn.callers x hx
      refine ⟨e, ?_, hnot⟩
      rw [hother, he]
      rintro rfl
      rw [Heap.entry, hfree] at he
      cases he
    · rw [List.mem_singleton.1 hx]
      refine ⟨_, hself, fun hmem => ?_⟩
      obtain ⟨e, he, heq⟩ := List.mem_map.1 hmem
      exact (hn.pushed e he).ne heq

theorem push (hn : s.Numbered) {heap : Heap A D} (hcallers : s.callers.Nodup) (ha : a ∈ s.callers)
    (he : s.heap.entry a = some e) (hentry : heap.entry = s.heap.entry) :
    Numbered { s with
      heap := heap, callers := s.callers.erase a, msgTail := some a, pushed := s.pushed ++ [e] } := by
  obtain ⟨e', he', hnot⟩ := hn.callers a ha
  obtain rfl : e = e' := Option.some.inj (he.symm.trans he')
  refine ⟨hentry ▸ hn.bound, hentry ▸ hn.unique, fun f hf => ?_, ?_, fun x hx => ?_⟩
  · rcases List.mem_append.1 hf with hf | hf
    · exact hn.pushed f hf
    · rw [List.mem_singleton.1 hf]
      exact hn.bound a e he
  · show ((s.pushed ++ [e]).map Prod.fst).Nodup
    rw [List.map_append, List.nodup_append]
    refine ⟨hn.nodup, List.pairwise_singleton _ _, fun n hn m hm => ?_⟩
    rintro rfl
    exact hnot (List.mem_singleton.1 hm ▸ hn)
  · obtain ⟨hxa, hx⟩ := hcallers.mem_erase_iff.1 hx
    obtain ⟨f, hf, hnot⟩ := hn.callers x hx
    refine ⟨f, hentry ▸ hf, fun hmem => ?_⟩
    replace hmem : f.1 ∈ (s.pushed ++ [e]).map Prod.fst := hmem
    rw [List.map_append, List.mem_append] at hmem
    rcases hmem with hmem | hmem
    · exact hnot hmem
    · exact hxa (hn.unique x a f e hf he (List.mem_singleton.1 hmem))

theorem run (hn : s.Numbered) (hblocks : t.blocks = s.blocks) (hpushed : t.pushed = s.pushed)
    (hcallers : t.callers = s.callers)
    (hheap : t.heap = s.heap ∨ ∃ a, a ∉ s.callers ∧ t.heap = Function.update s.heap a none) :
    t.Numbered := by
  have hentry : ∀ x e, t.heap.entry x = some e → s.heap.entry x = some e := by
    intro x e hx
    rcases hheap with hheap | ⟨a, -, hheap⟩
    · exact hheap ▸ hx
    · rw [hheap] at hx
      by_cases hxa : x = a
      · rw [hxa, Heap.entry, Function.update_self] at hx
        cases hx
      · exact Heap.entry_update_of_ne hxa ▸ hx
  refine ⟨fun x e hx => hblocks ▸ hn.bound x e (hentry x e hx),
    fun x y e f hx hy => hn.unique x y e f (hentry x e hx) (hentry y f hy),
    hpushed ▸ hblocks ▸ hn.pushed, hpushed ▸ hn.nodup, fun x hx => ?_⟩
  rw [hcallers] at hx
  obtain ⟨e, he, hnot⟩ := hn.callers x hx
  refine ⟨e, ?_, hpushed ▸ hnot⟩
  rcases hheap with hheap | ⟨a, ha, hheap⟩
  · exact hheap ▸ he
  · rw [hheap, Heap.entry_update_of_ne fun hxa : x = a => ha (hxa ▸ hx)]
    exact he

end Numbered

/-! ## Runs -/

namespace Sound

variable {log : List (ℕ × Msg D)} {ev : QueueEvent A D}

/-- **One step** of anybody. -/
theorem step (h : s.Sound log) (hstep : s.step ev = some t) : t.Sound log := by
  obtain ⟨hn, v, hv, hlog⟩ := h
  cases ev with
  | create a msg link =>
    obtain ⟨hfree, hstep⟩ := Option.ite_none_right_eq_some.1 hstep
    cases hstep
    rw [Option.isNone_iff_eq_none] at hfree
    exact ⟨hn.create hfree msg link, v, hv.create hn hfree msg link, hlog⟩
  | push a =>
    obtain ⟨ha, hstep⟩ := Option.ite_none_right_eq_some.1 hstep
    cases hstep
    obtain ⟨e, he, -⟩ := hn.callers a ha
    obtain ⟨heap, hpush, hentry, -⟩ := hv.pushBackMsg ha he
    obtain ⟨t, ht, hv'⟩ := hv.push ha he
    rw [hpush] at ht
    cases ht
    rw [CThreadMsgBase.run, hpush, Option.getD_some]
    exact ⟨hn.push (List.nodup_append.1 hv.nodup).2.1 ha he hentry, _, hv', hlog⟩
  | run =>
    cases hstep
    obtain ⟨t, v', hrun, hv', htaken, hheap⟩ := hv.run
    obtain ⟨hblocks, hpushed, hcallers⟩ := dispatchThreadMsg_frame hrun
    rw [CThreadMsgBase.run, hrun, Option.getD_some]
    exact ⟨hn.run hblocks hpushed hcallers hheap, v', hv', hlog.trans htaken⟩

theorem exec {es : List (QueueEvent A D)} (h : s.Sound log)
    (hexec : Foundations.exec CThreadMsgBase.step s es = some t) : t.Sound log :=
  (always_of_step (fun _ _ _ => Sound.step) h es).last hexec

end Sound

/-- **Every message once, in order.** In every run no node is used after it was deleted, and what has been
handed over and what has been deleted are beginnings of what has been appended, where no node occurs
twice. All that was appended before the consumer takes a ring has been handed over and deleted, once
each, when it takes the next one. -/
theorem dispatched_once {es : List (QueueEvent A D)} (h : exec step start es = some s) :
    s.faulted = false ∧ s.Live ∧ s.dispatched <+: s.pushed ∧ s.deleted <+: s.pushed.map Prod.fst ∧
      (s.pushed.map Prod.fst).Nodup ∧
      ∀ t, s.line = .steal → s.step .run = some t →
        ∀ fs u, exec step t fs = some u → u.line = .steal →
          s.pushed <+: u.dispatched ∧ ∀ e ∈ s.pushed, u.deleted.count e.1 = 1 := by
  obtain ⟨hn, v, hv, -⟩ := sound_start.exec h
  refine ⟨hv.faulted, hv.live, hv.dispatched_prefix, hv.deleted_prefix, hn.nodup, ?_⟩
  intro t hline hstep fs u hexec hu
  obtain ⟨t', v', hrun, hv', htaken, hheap⟩ := hv.steal hline
  obtain ⟨hblocks, hpushed, hcallers⟩ := dispatchThreadMsg_frame hrun
  have ht : t = t' := by
    rw [CThreadMsgBase.step, CThreadMsgBase.run, hrun] at hstep
    exact (Option.some.inj hstep).symm
  subst ht
  have hsound : t.Sound s.pushed :=
    ⟨hn.run hblocks hpushed hcallers (.inl hheap), v', hv', htaken ▸ List.prefix_rfl⟩
  obtain ⟨hn', w, hw, hlog⟩ := hsound.exec hexec
  obtain ⟨hdispatched, hdeleted⟩ := hw.taken_of_steal hu
  refine ⟨hdispatched ▸ hlog, fun e he => ?_⟩
  refine List.count_eq_one_of_mem ((List.IsPrefix.sublist hw.deleted_prefix).nodup hn'.nodup) ?_
  rw [hdeleted]
  exact List.mem_map_of_mem (hlog.subset he)

/-- A message is appended, and the consumer is about to take it. -/
def beforeSteal : List (QueueEvent ℕ ℕ) := [.create 0 ⟨5, 1, 50⟩ none, .push 0, .run, .run]

/-- Its handler appends another message, and a third one gets the address of the first node. -/
def afterSteal : List (QueueEvent ℕ ℕ) :=
  [.run, .run, .run, .create 1 ⟨6, 1, 60⟩ none, .push 1, .run, .run, .create 0 ⟨7, 2, 70⟩ (some 1),
    .push 0, .run, .run, .run]

/-- The first message is handed over and deleted once before the other two are taken. -/
theorem dispatched_once_afterSteal : ∃ s t u, exec step start beforeSteal = some s ∧
    s.step .run = some t ∧ exec step t afterSteal = some u ∧ u.line = .steal ∧
    u.pushed.length = 3 ∧ s.pushed <+: u.dispatched ∧ ∀ e ∈ s.pushed, u.deleted.count e.1 = 1 :=
  ⟨_, _, _, rfl, rfl, rfl, rfl, rfl,
    (dispatched_once (show exec step start beforeSteal = some _ from rfl)).2.2.2.2.2 _ rfl rfl
      afterSteal _ rfl rfl⟩

end CThreadMsgBase

end SimpleUv
