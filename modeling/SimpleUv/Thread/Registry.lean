import Mathlib.Data.List.Basic
import Mathlib.Logic.Function.Basic

/-!
# The registry of threads

`CUVThreadMng` maps the type of a thread to the thread, and every `CUVThread` keeps a copy of this map,
which `SendUvMessage` looks its receiver up in. The copies are maintained by messages: `RegistThread`
tells the new thread about the others before it enters the thread in the registry, and all threads of
the registry about the new one afterwards; `UnRegistThread` removes a type and tells those that are left.

Threads are named by their addresses. A `std::map` is an ordered map, which a loop goes through in the
order of its keys. The message queue of a thread is the list of the messages that are appended and not
dispatched yet.
-/

namespace SimpleUv

variable {P : Type}

/-- `map<unsigned int, CUVThread *>`. -/
abbrev ThreadMap (P : Type) := Std.ExtTreeMap UInt32 P

namespace ThreadMap

variable {m m' : ThreadMap P} {t k : UInt32} {p q : P}

theorem ext (h : ∀ k : UInt32, m[k]? = m'[k]?) : m = m' := Std.ExtTreeMap.ext_getElem? h

theorem getElem?_insert : (m.insert t p)[k]? = if t = k then some p else m[k]? := by
  rw [Std.ExtTreeMap.getElem?_insert]
  simp only [Std.compare_eq_iff_eq]

/-- `insert` of a map does not overwrite. -/
theorem getElem?_insertIfNew :
    (m.insertIfNew t p)[k]? = m[k]?.or (if t = k then some p else none) := by
  rw [Std.ExtTreeMap.getElem?_insertIfNew]
  simp only [Std.compare_eq_iff_eq]
  by_cases htk : t = k
  · subst htk
    cases hm : m[t]? with
    | none =>
      have hmem : t ∉ m := fun hmem => by simp [Std.ExtTreeMap.getElem?_eq_some_getElem hmem] at hm
      simp [hmem]
    | some q =>
      have hmem : t ∈ m := Std.ExtTreeMap.mem_iff_isSome_getElem?.2 (by rw [hm]; rfl)
      simp [hmem]
  · simp [htk]

theorem getElem?_erase : (m.erase t)[k]? = if t = k then none else m[k]? := by
  rw [Std.ExtTreeMap.getElem?_erase]
  simp only [Std.compare_eq_iff_eq]

theorem mem_toList_iff : (k, p) ∈ m.toList ↔ m[k]? = some p :=
  Std.ExtTreeMap.mem_toList_iff_getElem?_eq_some

/-- The threads of the map get the messages of a loop. -/
theorem mem_threads (h : m[k]? = some p) : p ∈ m.toList.map Prod.snd :=
  List.mem_map.2 ⟨(k, p), mem_toList_iff.2 h, rfl⟩

theorem find?_toList (m : ThreadMap P) (k : UInt32) :
    (m.toList.find? (·.1 = k)).map Prod.snd = m[k]? := by
  cases hfind : m.toList.find? (·.1 = k) with
  | none =>
    cases hm : m[k]? with
    | none => rfl
    | some p => simpa using List.find?_eq_none.1 hfind _ (mem_toList_iff.2 hm)
  | some it =>
    obtain rfl : it.1 = k := by simpa using List.find?_some hfind
    exact (mem_toList_iff.1 (List.mem_of_find?_eq_some hfind)).symm

/-- `begin()`, by its key. -/
def begin (m : ThreadMap P) : Option UInt32 := m.toList.head?.map Prod.fst

/-- `++it`, from key to key. -/
def next (m : ThreadMap P) (k : UInt32) : Option UInt32 :=
  (m.toList.find? (k < ·.1)).map Prod.fst

/-- The loops go through the keys in their order. -/
theorem ordered (m : ThreadMap P) : m.toList.Pairwise fun a b => a.1 < b.1 :=
  Std.ExtTreeMap.ordered_keys_toList.imp Std.compare_eq_lt.1

theorem begin_le {j : UInt32} (hj : m[j]? = some q) : ∃ k, m.begin = some k ∧ k ≤ j := by
  have hmem := mem_toList_iff.2 hj
  have hord := m.ordered
  unfold begin
  cases hl : m.toList with
  | nil => simp [hl] at hmem
  | cons it l =>
    refine ⟨it.1, rfl, ?_⟩
    rw [hl] at hmem hord
    rcases List.mem_cons.1 hmem with heq | hmem
    · rw [← heq]
      exact UInt32.le_refl j
    · exact UInt32.le_of_lt (List.rel_of_pairwise_cons hord hmem)

/-- `++it` misses no key behind `it`. -/
theorem next_le {j : UInt32} (hj : m[j]? = some q) (hk : k < j) : ∃ k', m.next k = some k' ∧ k' ≤ j := by
  have hmem := mem_toList_iff.2 hj
  have hord := m.ordered
  unfold next
  cases hfind : m.toList.find? (k < ·.1) with
  | none => simpa [hk] using List.find?_eq_none.1 hfind _ hmem
  | some it =>
    refine ⟨it.1, rfl, ?_⟩
    obtain ⟨-, l₁, l₂, hl, hbefore⟩ := List.find?_eq_some_iff_append.1 hfind
    rw [hl] at hmem hord
    rcases List.mem_append.1 hmem with hmem | hmem
    · simpa [hk] using hbefore _ hmem
    · rcases List.mem_cons.1 hmem with heq | hmem
      · rw [← heq]
        exact UInt32.le_refl j
      · exact UInt32.le_of_lt (List.rel_of_pairwise_cons (List.pairwise_append.1 hord).2.1 hmem)

/-- `++it` goes forward. -/
theorem lt_of_next {k' : UInt32} (h : m.next k = some k') : k < k' := by
  obtain ⟨it, hit, rfl⟩ := Option.map_eq_some_iff.1 h
  simpa using List.find?_some hit

/-- `++it` goes to the next entry of the list. -/
theorem next_of_append {it : UInt32 × P} {l₁ l₂ : List (UInt32 × P)}
    (h : m.toList = l₁ ++ it :: l₂) : m.next it.1 = l₂.head?.map Prod.fst := by
  have hord := m.ordered
  rw [h, List.pairwise_append, List.pairwise_cons] at hord
  obtain ⟨-, ⟨hafter, -⟩, hbefore⟩ := hord
  have hskip : ∀ x ∈ l₁ ++ [it], ¬ it.1 < x.1 := by
    intro x hx
    rcases List.mem_append.1 hx with hx | hx
    · exact UInt32.lt_asymm (hbefore x hx it List.mem_cons_self)
    · rw [List.mem_singleton.1 hx]
      exact UInt32.lt_irrefl _
  have hsplit : m.toList = (l₁ ++ [it]) ++ l₂ := by rw [h, List.append_assoc]; rfl
  have hnone : (l₁ ++ [it]).find? (it.1 < ·.1) = none :=
    List.find?_eq_none.2 fun x hx => by simpa using hskip x hx
  rw [next, hsplit, List.find?_append, hnone, Option.none_or]
  cases l₂ with
  | nil => rfl
  | cons x l₂ => simp [hafter x List.mem_cons_self]

end ThreadMap

/-- The messages `REGIST_THREAD_MSG` and `UN_REGIST_THREAD_MSG`. -/
inductive ThreadMsg (P : Type)
  | regist (nType : UInt32) (pData : P)
  | unRegist (nType : UInt32)
  deriving DecidableEq, Repr

/-- `CUVThread::OnUvThreadMessage`. -/
def onUvThreadMessage (m : ThreadMap P) : ThreadMsg P → ThreadMap P
  | .regist nType pData => m.insertIfNew nType pData
  | .unRegist nType => if nType ∈ m then m.erase nType else m

/-- A `CUVThread`. -/
structure CUVThread (P : Type) where
  mapThread : ThreadMap P
  queue : List (ThreadMsg P)

namespace CUVThread

variable (thread : CUVThread P)

/-- A new thread. -/
def new : CUVThread P := ⟨∅, []⟩

/-- The thread dispatches its next message. -/
def dispatch : CUVThread P :=
  match thread.queue with
  | [] => thread
  | msg :: queue => ⟨onUvThreadMessage thread.mapThread msg, queue⟩

/-- The copy of the registry when the thread has processed all of its messages, in order. -/
def settled : ThreadMap P := thread.queue.foldl onUvThreadMessage thread.mapThread

/-- The receiver of `CUVThread::SendUvMessage`, or none when it returns -1. -/
def sendUvMessage (nDstAddr : UInt32) : Option P := thread.mapThread[nDstAddr]?

end CUVThread

/-- `CUVThreadMng`, with the threads. -/
structure CUVThreadMng (P : Type) where
  mapThread : ThreadMap P
  threads : P → CUVThread P

namespace CUVThreadMng

/-- No thread is registered. -/
def start : CUVThreadMng P := ⟨∅, fun _ => .new⟩

variable [DecidableEq P] (s : CUVThreadMng P)

/-- The receiver of `CUVThreadMng::SendUvMessage`, or none when it returns -1. -/
def sendUvMessage (nDstAddr : UInt32) : Option P := s.mapThread[nDstAddr]?

/-- `pThread->PushBackMsg(msg)`. -/
def pushBackMsg (pThread : P) (msg : ThreadMsg P) : CUVThreadMng P :=
  { s with
    threads := Function.update s.threads pThread
      { s.threads pThread with queue := (s.threads pThread).queue ++ [msg] } }

/-- A loop that appends messages to queues. -/
def pushBackAll (msgs : List (P × ThreadMsg P)) : CUVThreadMng P :=
  msgs.foldl (fun s msg => s.pushBackMsg msg.1 msg.2) s

/-- The loop that sends the entries of the registry to one thread. -/
def introduce (pThread : P) : CUVThreadMng P :=
  s.pushBackAll (s.mapThread.toList.map fun it => (pThread, .regist it.1 it.2))

/-- The loop that sends one message to the threads of the registry. -/
def announce (msg : ThreadMsg P) : CUVThreadMng P :=
  s.pushBackAll (s.mapThread.toList.map fun it => (it.2, msg))

/-- `RegistThread`. -/
def registThread (nType : UInt32) (pThread : P) : CUVThreadMng P :=
  let s := s.introduce pThread
  let s := { s with mapThread := s.mapThread.insert nType pThread }
  s.announce (.regist nType pThread)

/-- `UnRegistThread`. -/
def unRegistThread (nType : UInt32) : CUVThreadMng P :=
  let s := { s with mapThread := if nType ∈ s.mapThread then s.mapThread.erase nType else s.mapThread }
  s.announce (.unRegist nType)

/-- A thread dispatches its next message. -/
def dispatch (pThread : P) : CUVThreadMng P :=
  { s with threads := Function.update s.threads pThread (s.threads pThread).dispatch }

end CUVThreadMng

/-! ## Messages -/

section Messages

variable {m : ThreadMap P} {t k : UInt32} {p : P}

theorem getElem?_regist :
    (onUvThreadMessage m (.regist t p))[k]? = m[k]?.or (if t = k then some p else none) :=
  ThreadMap.getElem?_insertIfNew

theorem getElem?_unRegist :
    (onUvThreadMessage m (.unRegist t))[k]? = if t = k then none else m[k]? := by
  show (if t ∈ m then m.erase t else m)[k]? = _
  by_cases hmem : t ∈ m
  · rw [if_pos hmem, ThreadMap.getElem?_erase]
  · rw [if_neg hmem]
    split_ifs with htk
    · exact Std.ExtTreeMap.getElem?_eq_none (htk ▸ hmem)
    · rfl

/-- A second copy of a message changes nothing. -/
theorem onUvThreadMessage_idem (m : ThreadMap P) (msg : ThreadMsg P) :
    onUvThreadMessage (onUvThreadMessage m msg) msg = onUvThreadMessage m msg := by
  cases msg with
  | regist t p =>
    refine ThreadMap.ext fun k => ?_
    rw [getElem?_regist, getElem?_regist, Option.or_assoc, Option.or_self]
  | unRegist t =>
    refine ThreadMap.ext fun k => ?_
    rw [getElem?_unRegist, getElem?_unRegist]
    split_ifs <;> rfl

/-- Copies of a message are as good as one. -/
theorem foldl_onUvThreadMessage_replicate (m : ThreadMap P) (msg : ThreadMsg P) (n : ℕ) :
    (List.replicate (n + 1) msg).foldl onUvThreadMessage m = onUvThreadMessage m msg := by
  induction n with
  | zero => rfl
  | succ n ih =>
    rw [List.replicate_succ, List.replicate_succ, List.foldl_cons, List.foldl_cons,
      onUvThreadMessage_idem]
    exact ih

/-- The messages about the entries of a list tell the entries that are not known, the first for each key. -/
theorem getElem?_introduced (m : ThreadMap P) (l : List (UInt32 × P)) (k : UInt32) :
    ((l.map fun it => ThreadMsg.regist it.1 it.2).foldl onUvThreadMessage m)[k]? =
      m[k]?.or ((l.find? (·.1 = k)).map Prod.snd) := by
  induction l generalizing m with
  | nil => simp
  | cons it l ih =>
    rw [List.map_cons, List.foldl_cons, ih, getElem?_regist, Option.or_assoc]
    congr 1
    by_cases hk : it.1 = k <;> simp [hk]

end Messages

/-! ## Loops -/

namespace CUVThreadMng

variable {s : CUVThreadMng P} {t : UInt32} {p q : P} {msg : ThreadMsg P}

variable [DecidableEq P]

/-- A message that is appended is processed last. -/
theorem settled_pushBackMsg : ((s.pushBackMsg p msg).threads q).settled =
    if p = q then onUvThreadMessage (s.threads q).settled msg else (s.threads q).settled := by
  by_cases hq : p = q
  · subst hq
    simp only [pushBackMsg, Function.update_self, CUVThread.settled, List.foldl_append,
      List.foldl_cons, List.foldl_nil, if_true]
  · simp only [pushBackMsg, Function.update_of_ne (Ne.symm hq), hq, if_false]

theorem mapThread_pushBackAll (msgs : List (P × ThreadMsg P)) :
    (s.pushBackAll msgs).mapThread = s.mapThread := by
  induction msgs generalizing s with
  | nil => rfl
  | cons msg msgs ih => exact ih

theorem mapThread_introduce : (s.introduce p).mapThread = s.mapThread := mapThread_pushBackAll _

theorem mapThread_announce : (s.announce msg).mapThread = s.mapThread := mapThread_pushBackAll _

/-- Each thread processes its own messages. -/
theorem settled_pushBackAll (msgs : List (P × ThreadMsg P)) :
    ((s.pushBackAll msgs).threads q).settled =
      ((msgs.filter (·.1 = q)).map Prod.snd).foldl onUvThreadMessage (s.threads q).settled := by
  induction msgs generalizing s with
  | nil => rfl
  | cons msg msgs ih =>
    rw [pushBackAll, List.foldl_cons]
    refine ih.trans ?_
    rw [settled_pushBackMsg]
    by_cases hq : msg.1 = q <;> simp [hq]

theorem settled_introduce : ((s.introduce p).threads q).settled =
    if p = q then
      (s.mapThread.toList.map fun it => ThreadMsg.regist it.1 it.2).foldl onUvThreadMessage
        (s.threads q).settled
    else (s.threads q).settled := by
  rw [introduce, settled_pushBackAll, List.filter_map]
  by_cases hq : p = q <;> simp [hq, Function.comp_def]

/-- The threads of the registry get the message, and those it names more than once do not notice. -/
theorem settled_announce : ((s.announce msg).threads q).settled =
    if q ∈ s.mapThread.toList.map Prod.snd then onUvThreadMessage (s.threads q).settled msg
    else (s.threads q).settled := by
  have hcopies : (((s.mapThread.toList.map fun it => (it.2, msg)).filter (·.1 = q)).map Prod.snd) =
      List.replicate ((s.mapThread.toList.map Prod.snd).count q) msg := by
    generalize s.mapThread.toList = l
    induction l with
    | nil => rfl
    | cons it l ih => by_cases hq : it.2 = q <;> simpa [hq, List.replicate_succ] using ih
  rw [announce, settled_pushBackAll, hcopies]
  split_ifs with hq
  · obtain ⟨n, hn⟩ := Nat.exists_eq_succ_of_ne_zero (Nat.pos_iff_ne_zero.1 (List.count_pos_iff.2 hq))
    rw [hn, foldl_onUvThreadMessage_replicate]
  · rw [List.count_eq_zero.2 hq]
    rfl

end CUVThreadMng

end SimpleUv
