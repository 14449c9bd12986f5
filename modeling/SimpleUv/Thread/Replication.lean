import SimpleUv.Foundations.Transition
import SimpleUv.Thread.Registry

/-!
# The copies of the registry

The registry and its copies are changed by different operations: `RegistThread` overwrites an entry, and
the message about it inserts one. After a call of `RegistThread` every registered thread still ends up
with the registry as its copy exactly when the new thread knows nothing that contradicts the registry, and
the type was free (`replicated_registThread_iff`). `UnRegistThread` keeps the copies equal in any case.
-/

namespace SimpleUv

open Foundations

variable {P : Type}

/-- A call of the registry, which runs to its end, or a message that a thread processes. -/
inductive RegistryEvent (P : Type)
  | regist (nType : UInt32) (pThread : P)
  | unRegist (nType : UInt32)
  | dispatch (pThread : P)

namespace CUVThreadMng

/-- Every registered thread has the registry as its copy when it has processed its messages. -/
def Replicated (s : CUVThreadMng P) : Prop :=
  ∀ (k : UInt32) q, s.mapThread[k]? = some q → (s.threads q).settled = s.mapThread

/-- The new thread knows nothing that contradicts the registry, and its type is free; or the type
belonged to the only other thread, and the new one knows itself from an earlier registration. -/
def Consistent (s : CUVThreadMng P) : RegistryEvent P → Prop
  | .regist t p =>
    (∀ (k : UInt32) q, (s.threads p).settled[k]? = some q → (s.mapThread.insert t p)[k]? = some q) ∧
      ((∀ q, s.mapThread[t]? = some q → q = p) ∨
        ((s.threads p).settled[t]? = some p ∧
          ∀ (k : UInt32) q, (s.mapThread.insert t p)[k]? = some q → q = p))
  | _ => True

variable [DecidableEq P] {s s' : CUVThreadMng P} {t k : UInt32} {p q : P} {e : RegistryEvent P}

/-- One call, or one message. -/
def step (s : CUVThreadMng P) : RegistryEvent P → Option (CUVThreadMng P)
  | .regist t p => some (s.registThread t p)
  | .unRegist t => some (s.unRegistThread t)
  | .dispatch p => some (s.dispatch p)

/-! ## One call -/

theorem mapThread_registThread : (s.registThread t p).mapThread = s.mapThread.insert t p := by
  rw [registThread, mapThread_announce, mapThread_introduce]

theorem settled_registThread (q : P) : ((s.registThread t p).threads q).settled =
    if q ∈ (s.mapThread.insert t p).toList.map Prod.snd then
      onUvThreadMessage ((s.introduce p).threads q).settled (.regist t p)
    else ((s.introduce p).threads q).settled := by
  rw [← mapThread_introduce (s := s) (p := p)]
  exact settled_announce

/-- The new thread learns the registry first, and then its own entry. -/
theorem settled_registThread_self :
    ((s.registThread t p).threads p).settled[k]? =
      ((s.threads p).settled[k]?.or s.mapThread[k]?).or (if t = k then some p else none) := by
  have hmem : p ∈ (s.mapThread.insert t p).toList.map Prod.snd :=
    ThreadMap.mem_threads (by rw [ThreadMap.getElem?_insert, if_pos rfl])
  rw [settled_registThread, if_pos hmem, getElem?_regist, settled_introduce, if_pos rfl,
    getElem?_introduced, ThreadMap.find?_toList]

/-- The other threads of the registry learn the new entry. -/
theorem settled_registThread_of_ne (hq : q ≠ p) {k : UInt32} (hk : s.mapThread[k]? = some q)
    (htk : t ≠ k) : ((s.registThread t p).threads q).settled =
      onUvThreadMessage (s.threads q).settled (.regist t p) := by
  have hmem : q ∈ (s.mapThread.insert t p).toList.map Prod.snd :=
    ThreadMap.mem_threads (by rw [ThreadMap.getElem?_insert, if_neg htk, hk])
  rw [settled_registThread, if_pos hmem, settled_introduce, if_neg hq.symm]

/-- **When `RegistThread` keeps the copies equal.** -/
theorem replicated_registThread_iff (h : s.Replicated) :
    (s.registThread t p).Replicated ↔ s.Consistent (.regist t p) := by
  have hself : (s.mapThread.insert t p)[t]? = some p := by rw [ThreadMap.getElem?_insert, if_pos rfl]
  have hother : ∀ {k}, t ≠ k → (s.mapThread.insert t p)[k]? = s.mapThread[k]? := fun htk => by
    rw [ThreadMap.getElem?_insert, if_neg htk]
  constructor
  · intro hnew
    have hp : ∀ k, ((s.threads p).settled[k]?.or s.mapThread[k]?).or (if t = k then some p else none) =
        (s.mapThread.insert t p)[k]? := fun k => by
      rw [← settled_registThread_self, hnew t p (by rw [mapThread_registThread, hself]),
        mapThread_registThread]
    refine ⟨fun k q hk => by rw [← hp, hk]; rfl, ?_⟩
    by_cases hfree : ∀ q, s.mapThread[t]? = some q → q = p
    · exact .inl hfree
    · push Not at hfree
      obtain ⟨r, hr, hrp⟩ := hfree
      refine .inr ⟨?_, fun k q hk => ?_⟩
      · have ht := hp t
        rw [hr, hself] at ht
        cases hv : (s.threads p).settled[t]? with
        | none => simp [hv, hrp] at ht
        | some x => simpa [hv] using ht
      · by_contra hqp
        have htk : t ≠ k := by
          rintro rfl
          exact hqp (Option.some.inj (hk.symm.trans hself))
        have hq : ((s.registThread t p).threads q).settled[t]? = some p := by
          rw [hnew k q (by rw [mapThread_registThread, hk]), mapThread_registThread, hself]
        rw [hother htk] at hk
        rw [settled_registThread_of_ne hqp hk htk, h k q hk, getElem?_regist, hr] at hq
        exact hrp (Option.some.inj hq)
  · rintro ⟨hknown, hfree⟩ k q hk
    rw [mapThread_registThread] at hk ⊢
    refine ThreadMap.ext fun j => ?_
    by_cases hqp : q = p
    · subst hqp
      rw [settled_registThread_self]
      by_cases htj : t = j
      · subst htj
        rw [hself, if_pos rfl]
        cases hv : (s.threads q).settled[t]? with
        | some x => simpa [hself, eq_comm] using hknown t x hv
        | none =>
          rcases hfree with hfree | ⟨hv', -⟩
          · cases hr : s.mapThread[t]? with
            | none => rfl
            | some r => rw [hfree r hr]; rfl
          · rw [hv] at hv'
            cases hv'
      · rw [hother htj, if_neg htj, Option.or_none]
        cases hv : (s.threads q).settled[j]? with
        | some x => exact (hother htj ▸ hknown j x hv).symm
        | none => rfl
    · have htk : t ≠ k := by
        rintro rfl
        exact hqp (Option.some.inj (hk.symm.trans hself))
      have hfree : ∀ q, s.mapThread[t]? = some q → q = p :=
        hfree.resolve_right fun hright => hqp (hright.2 k q hk)
      rw [hother htk] at hk
      rw [settled_registThread_of_ne hqp hk htk, h k q hk, getElem?_regist]
      by_cases htj : t = j
      · subst htj
        rw [hself, if_pos rfl]
        cases hr : s.mapThread[t]? with
        | none => rfl
        | some r => rw [hfree r hr]; rfl
      · rw [hother htj, if_neg htj, Option.or_none]

omit [DecidableEq P] in
/-- A new thread of a free type contradicts nothing. -/
theorem consistent_of_new (hp : s.threads p = .new) (ht : s.mapThread[t]? = none) :
    s.Consistent (.regist t p) := by
  refine ⟨fun k q hk => ?_, .inl fun q hq => ?_⟩
  · rw [hp, CUVThread.settled, CUVThread.new, List.foldl_nil, Std.ExtTreeMap.getElem?_empty] at hk
    cases hk
  · rw [ht] at hq
    cases hq

/-- **`UnRegistThread` keeps the copies equal.** -/
theorem Replicated.unRegistThread (h : s.Replicated) : (s.unRegistThread t).Replicated := by
  intro k q hk
  have hmap : (s.unRegistThread t).mapThread = onUvThreadMessage s.mapThread (.unRegist t) :=
    mapThread_announce
  rw [hmap] at hk ⊢
  have hannounce : ((s.unRegistThread t).threads q).settled =
      if q ∈ (onUvThreadMessage s.mapThread (.unRegist t)).toList.map Prod.snd then
        onUvThreadMessage (s.threads q).settled (.unRegist t)
      else (s.threads q).settled := settled_announce
  rw [hannounce, if_pos (ThreadMap.mem_threads hk)]
  rw [getElem?_unRegist] at hk
  split_ifs at hk
  rw [h k q hk]

/-- Messages that are processed do not matter. -/
theorem settled_dispatch : ((s.dispatch p).threads q).settled = (s.threads q).settled := by
  by_cases hq : q = p
  · subst hq
    simp only [dispatch, Function.update_self, CUVThread.dispatch]
    cases hqueue : (s.threads q).queue with
    | nil => rfl
    | cons msg queue => simp only [CUVThread.settled, hqueue, List.foldl_cons]
  · simp only [dispatch, Function.update_of_ne hq]

omit [DecidableEq P] in
theorem replicated_start : (start : CUVThreadMng P).Replicated := by
  intro k q hk
  rw [start, Std.ExtTreeMap.getElem?_empty] at hk
  cases hk

/-! ## Histories -/

/-- **The copies equal the registry** after every call of a history exactly when every thread that is
registered is consistent with the registry at that time. -/
theorem replicated_iff (es : List (RegistryEvent P)) :
    Always step Replicated start es ↔ Along step Consistent start es := by
  refine always_iff_along (A := fun _ => True) (fun s e t h _ hok hstep => ?_)
    (fun s e t h _ hok hstep => ?_) (fun _ h => h) replicated_start fun _ _ => trivial
  · cases e with
    | regist nType pThread =>
      cases hstep
      exact (replicated_registThread_iff h).2 hok
    | unRegist nType =>
      cases hstep
      exact h.unRegistThread
    | dispatch pThread =>
      cases hstep
      intro k q hk
      rw [settled_dispatch]
      exact h k q hk
  · cases e with
    | regist nType pThread =>
      cases hstep
      exact fun hnew => hok ((replicated_registThread_iff h).1 hnew)
    | unRegist nType | dispatch pThread => exact absurd trivial hok

/-- A second thread is registered with the same type. -/
def replaced : List (RegistryEvent Bool) := [.regist 1 false, .regist 1 true]

/-- It takes the type in its own copy for the first one's. -/
theorem replaced_not_replicated : ¬ Always step Replicated start replaced := by
  intro h
  have hlast : ((start.registThread 1 false).registThread 1 true).Replicated := h.last rfl
  have hcopy := hlast 1 true (by decide)
  have hold : (((start.registThread 1 false).registThread 1 true).threads true).settled[(1 : UInt32)]? =
      some false := by decide
  rw [hcopy] at hold
  exact absurd hold (by decide)

end CUVThreadMng

end SimpleUv
