import Mathlib.Tactic.IntervalCases
import SimpleUv.Libuv.Async

/-!
# No wake-up is lost

Once a thread has called `uv_async_send` on an active handle with a callback, in every interleaving of the
threads with the loop thread the loop thread will call that callback. While the handle is awaited, its flag is
set or a thread is about to set it; while the flag is set, the loop thread is to find it: the `eventfd` can be
read or is about to be written, or the handle is in the queue of `uv__async_event` (`Attended`). So the loop
thread never sleeps on an awaited handle (`not_asleep`), and when the threads and the loop thread go on, the
callback is called (`eventually_called`).
-/

namespace SimpleUv.Libuv.AsyncLoop

open Foundations Neighbours

variable {A T : Type} [DecidableEq A] [DecidableEq T] {s s' : AsyncLoop A T} {a b : A} {t : T}
  {e : AsyncEvent A T} {es : List (AsyncEvent A T)} {handles queue handles' queue' : List A}

/-- The `eventfd` can be read, or a thread is about to write to it. -/
def Signalled (s : AsyncLoop A T) : Prop :=
  0 < s.counter ∨ ∃ t a, s.sender t = some (.write, a)

/-- A thread is about to set the flag of the handle. -/
def Asking (s : AsyncLoop A T) (a : A) : Prop :=
  ∃ t p, s.sender t = some (p, a) ∧ p ≠ .write

/-- Nobody waits in vain. -/
structure Attended (s : AsyncLoop A T) (queue : List A) : Prop where
  flag : ∀ a, s.active a = true → s.pending a = true → s.Signalled ∨ a ∈ queue ∨ s.loop = .test a
  sent : ∀ a, s.active a = true → s.asyncCb a = true → s.awaited a = true →
    s.pending a = true ∨ s.Asking a

omit [DecidableEq A] in
/-- What becomes of a thread that is not at its write does not matter to the `eventfd`, -/
theorem Signalled.update (h : s.Signalled) (ht : ∀ c, s.sender t ≠ some (.write, c))
    (v : Option (SendPoint × A)) :
    0 < s.counter ∨ ∃ u c, Function.update s.sender t v u = some (.write, c) := by
  rcases h with hc | ⟨u, c, hu⟩
  · exact .inl hc
  · have hut : u ≠ t := by rintro rfl; exact ht c hu
    exact .inr ⟨u, c, by rw [Function.update_of_ne hut]; exact hu⟩

omit [DecidableEq A] in
/-- and of one that is not about to set a flag not to that flag. -/
theorem Asking.update (h : s.Asking a) (ht : ∀ p, s.sender t = some (p, a) → p = .write)
    (v : Option (SendPoint × A)) :
    ∃ u p, Function.update s.sender t v u = some (p, a) ∧ p ≠ .write := by
  obtain ⟨u, p, hu, hp⟩ := h
  have hut : u ≠ t := by rintro rfl; exact hp (ht p hu)
  exact ⟨u, p, by rw [Function.update_of_ne hut]; exact hu, hp⟩

/-- **Every step keeps it.** -/
theorem Attended.moves (h : s.Attended queue) (hs : Shape s handles queue)
    (hm : Moves s handles queue e s' handles' queue') : s'.Attended queue' := by
  cases hm with
  | send t a hnone ha =>
    refine ⟨fun b hb hpend => ?_, fun b hb hcb haw => ?_⟩
    · exact (h.flag b hb hpend).imp_left fun hsig => hsig.update (by simp [hnone]) _
    · rcases eq_or_ne b a with rfl | hba
      · exact .inr ⟨t, .read, Function.update_self .., by simp⟩
      · have haw' : s.awaited b = true := (Function.update_of_ne hba ..).symm.trans haw
        exact (h.sent b hb hcb haw').imp_right fun hask => hask.update (by simp [hnone]) _
  | found t p a hsend hp ha =>
    refine ⟨fun b hb hpend => ?_, fun b hb hcb haw => ?_⟩
    · refine (h.flag b hb hpend).imp_left fun hsig => hsig.update (fun c hc => ?_) _
      rw [hsend] at hc
      cases hc
      exact hp rfl
    · rcases eq_or_ne b a with rfl | hba
      · exact .inl ha
      · refine (h.sent b hb hcb haw).imp_right fun hask => hask.update (fun q hq => ?_) _
        rw [hsend] at hq
        cases hq
        exact absurd rfl hba
  | read t a hsend ha =>
    refine ⟨fun b hb hpend => ?_, fun b hb hcb haw => ?_⟩
    · exact (h.flag b hb hpend).imp_left fun hsig => hsig.update (by simp [hsend]) _
    · rcases eq_or_ne b a with rfl | hba
      · exact .inr ⟨t, .cmpxchg, Function.update_self .., by simp⟩
      · refine (h.sent b hb hcb haw).imp_right fun hask => hask.update (fun q hq => ?_) _
        rw [hsend] at hq
        cases hq
        exact absurd rfl hba
  | cmpxchg t a hsend ha =>
    refine ⟨fun b _ _ => .inl (.inr ⟨t, a, Function.update_self ..⟩), fun b hb hcb haw => ?_⟩
    rcases eq_or_ne b a with rfl | hba
    · exact .inl (Function.update_self ..)
    · refine (h.sent b hb hcb haw).imp (fun hp => (Function.update_of_ne hba ..).trans hp)
        fun hask => hask.update (fun q hq => ?_) _
      rw [hsend] at hq
      cases hq
      exact absurd rfl hba
  | write t a n hsend hn =>
    refine ⟨fun b _ _ => .inl (.inl hn), fun b hb hcb haw => ?_⟩
    refine (h.sent b hb hcb haw).imp_right fun hask => hask.update (fun q hq => ?_) _
    rw [hsend] at hq
    cases hq
    rfl
  | wake m hl hc =>
    refine ⟨fun b hb _ => .inr (.inl ?_), h.sent⟩
    have hmem := (hs.active b).1 hb
    rwa [hs.asleep hl, List.append_nil] at hmem
  | sleep hl hq =>
    refine ⟨fun b hb hpend => ?_, h.sent⟩
    rcases h.flag b hb hpend with hsig | hmem | htest
    · exact .inl hsig
    · rw [hq] at hmem
      exact absurd hmem List.not_mem_nil
    · rw [hl] at htest
      cases htest
  | visit m a rest hl hq =>
    refine ⟨fun b hb hpend => ?_, h.sent⟩
    rcases h.flag b hb hpend with hsig | hmem | htest
    · exact .inl hsig
    · rw [hq, List.mem_cons] at hmem
      rcases hmem with rfl | hmem
      exacts [.inr (.inr rfl), .inr (.inl hmem)]
    · rw [hl] at htest
      cases htest
  | idle a hl ha =>
    refine ⟨fun b hb hpend => ?_, h.sent⟩
    rcases h.flag b hb hpend with hsig | hmem | htest
    · exact .inl hsig
    · exact .inr (.inl hmem)
    · rw [hl] at htest
      cases htest
      exact absurd (ha.symm.trans hpend) Bool.false_ne_true
  | skip a hl ha hcb =>
    refine ⟨fun b hb hpend => ?_, fun b hb hcb' haw => ?_⟩
    · rcases eq_or_ne b a with rfl | hba
      · exact absurd ((Function.update_self ..).symm.trans hpend) Bool.false_ne_true
      · have hpend' : s.pending b = true := (Function.update_of_ne hba ..).symm.trans hpend
        rcases h.flag b hb hpend' with hsig | hmem | htest
        · exact .inl hsig
        · exact .inr (.inl hmem)
        · rw [hl] at htest
          cases htest
          exact absurd rfl hba
    · have hba : b ≠ a := by
        rintro rfl
        exact Bool.false_ne_true (hcb.symm.trans hcb')
      exact (h.sent b hb hcb' haw).imp_left fun hp => (Function.update_of_ne hba ..).trans hp
  | call a hl ha hcb =>
    refine ⟨fun b hb hpend => ?_, fun b hb hcb' haw => ?_⟩
    · rcases eq_or_ne b a with rfl | hba
      · exact absurd ((Function.update_self ..).symm.trans hpend) Bool.false_ne_true
      · have hpend' : s.pending b = true := (Function.update_of_ne hba ..).symm.trans hpend
        rcases h.flag b hb hpend' with hsig | hmem | htest
        · exact .inl hsig
        · exact .inr (.inl hmem)
        · rw [hl] at htest
          cases htest
          exact absurd rfl hba
    · have hba : b ≠ a := by
        rintro rfl
        exact absurd ((Function.update_self ..).symm.trans haw) Bool.false_ne_true
      have haw' : s.awaited b = true := (Function.update_of_ne hba ..).symm.trans haw
      exact (h.sent b hb hcb' haw').imp_left fun hp => (Function.update_of_ne hba ..).trans hp
  | «return» a hl =>
    refine ⟨fun b hb hpend => ?_, h.sent⟩
    rcases h.flag b hb hpend with hsig | hmem | htest
    · exact .inl hsig
    · exact .inr (.inl hmem)
    · rw [hl] at htest
      cases htest
  | init m a cb hu ha =>
    refine ⟨fun b hb hpend => ?_, fun b hb hcb' haw => ?_⟩
    · have hba : b ≠ a := by
        rintro rfl
        exact absurd ((Function.update_self ..).symm.trans hpend) Bool.false_ne_true
      exact h.flag b ((Function.update_of_ne hba ..).symm.trans hb)
        ((Function.update_of_ne hba ..).symm.trans hpend)
    · have hba : b ≠ a := by
        rintro rfl
        exact absurd ((Function.update_self ..).symm.trans haw) Bool.false_ne_true
      exact (h.sent b ((Function.update_of_ne hba ..).symm.trans hb)
        ((Function.update_of_ne hba ..).symm.trans hcb')
        ((Function.update_of_ne hba ..).symm.trans haw)).imp_left
        fun hp => (Function.update_of_ne hba ..).trans hp
  | close m a hu ha =>
    have hne : ∀ b, Function.update s.active a false b = true → b ≠ a := by
      rintro b hb rfl
      exact absurd ((Function.update_self ..).symm.trans hb) Bool.false_ne_true
    refine ⟨fun b hb hpend => ?_, fun b hb hcb' haw => ?_⟩
    · have hba := hne b hb
      rcases h.flag b ((Function.update_of_ne hba ..).symm.trans hb) hpend with hsig | hmem | htest
      · exact .inl hsig
      · exact .inr (.inl ((List.mem_erase_of_ne hba).2 hmem))
      · exact .inr (.inr htest)
    · exact h.sent b ((Function.update_of_ne (hne b hb) ..).symm.trans hb) hcb' haw

/-- What holds in every state that is reached: no handle is lost, and nobody waits in vain. -/
def Inv (s : AsyncLoop A T) : Prop := ∃ handles queue, Shape s handles queue ∧ s.Attended queue

theorem Inv.step (h : s.Inv) (hstep : s.step e = some s') : s'.Inv := by
  obtain ⟨handles, queue, hs, ha⟩ := h
  obtain ⟨handles', queue', hm, hs'⟩ := hs.moves hstep
  exact ⟨handles', queue', hs', ha.moves hs hm⟩

omit [DecidableEq A] [DecidableEq T] in
theorem IsInit.inv (h : s.IsInit) : s.Inv := by
  obtain ⟨hc, hactive, -, -, hl⟩ := h
  have hfalse : ∀ a, s.active a ≠ true := fun a ha => Bool.false_ne_true ((hactive a).symm.trans ha)
  refine ⟨[], [], ⟨hc, fun hl' => absurd hl hl', fun _ => rfl, List.nodup_nil, ?_, ?_⟩, ?_, ?_⟩
  · exact fun a => ⟨fun ha => absurd ha (hfalse a), fun ha => absurd ha List.not_mem_nil⟩
  · intro a ha
    rw [hl] at ha
    cases ha
  · exact fun a ha => absurd ha (hfalse a)
  · exact fun a ha => absurd ha (hfalse a)

/-- **The loop thread never sleeps on an awaited handle**: when it sleeps and no thread is in
`uv_async_send`, no active handle with a callback is awaited. -/
theorem not_asleep {s₀ : AsyncLoop A T} (h : s₀.IsInit) (hexec : exec step s₀ es = some s)
    (hl : s.loop = .poll) (hc : s.counter = 0) (ht : ∀ t, s.sender t = none) (ha : s.active a = true)
    (hcb : s.asyncCb a = true) : s.awaited a = false := by
  obtain ⟨handles, queue, hs, hatt⟩ := (always_of_step (fun _ _ _ => Inv.step) h.inv es).last hexec
  by_contra haw
  rw [Bool.not_eq_false] at haw
  rcases hatt.sent a ha hcb haw with hpend | ⟨t, p, hsend, -⟩
  · rcases hatt.flag a ha hpend with hsig | hmem | htest
    · rcases hsig with hpos | ⟨t, c, hsend⟩
      · exact hpos.ne' hc
      · rw [ht t] at hsend
        cases hsend
    · rw [hs.asleep hl] at hmem
      exact List.not_mem_nil hmem
    · rw [hl] at htest
      cases htest
  · rw [ht t] at hsend
    cases hsend

/-- A handle is opened, a thread sends, and the loop thread calls the callback and goes to sleep. -/
def sendOnce : List (AsyncEvent Unit Unit) :=
  [.init () true, .send () (), .sender (), .sender (), .sender (), .loop, .loop, .loop, .loop, .loop]

/-- A loop without handles. -/
def emptyLoop : AsyncLoop Unit Unit :=
  ⟨⟨id, id⟩, fun _ => false, fun _ => false, fun _ => false, 0, .poll, fun _ => none, fun _ => false⟩

theorem emptyLoop_isInit : emptyLoop.IsInit :=
  ⟨⟨by simp, by simp [emptyLoop, Neighbours.Joined]⟩, fun _ => rfl, fun _ => rfl, rfl, rfl⟩

theorem not_asleep_once : ∃ s, exec step emptyLoop sendOnce = some s ∧ s.awaited () = false :=
  ⟨_, rfl, not_asleep emptyLoop_isInit (show exec step emptyLoop sendOnce = some _ from rfl)
    rfl rfl (fun _ => rfl) (a := ()) rfl rfl⟩

/-! ### The callback is called -/

/-- An infinite run in which every thread that is in `uv_async_send` goes on, and so does the loop thread
when it can: the callbacks return. -/
structure Fair (ss : ℕ → AsyncLoop A T) (es : ℕ → Option (AsyncEvent A T)) : Prop where
  run : Behaviour step ss es
  sender : ∀ n t, (ss n).sender t ≠ none → ∃ m, n ≤ m ∧ es m = some (.sender t)
  loop : ∀ n s, (ss n).step .loop = some s → ∃ m, n ≤ m ∧ es m = some .loop

/-- An active handle with a callback is awaited. -/
def Waits (s : AsyncLoop A T) (a : A) : Prop :=
  s.active a = true ∧ s.asyncCb a = true ∧ s.awaited a = true

/-- How many steps of the loop thread there are at most until it is back from `uv__async_event`. -/
def weight (s : AsyncLoop A T) (queue : List A) : ℕ :=
  3 * queue.length + match s.loop with
    | .poll => 0
    | .visit => 1
    | .callback _ => 2
    | .test _ => 3

/-- The loop thread calls the callback of the handle. -/
def Called (s s' : AsyncLoop A T) (a : A) : Prop := s.loop = .test a ∧ s'.loop = .callback a

section Liveness

variable {ss : ℕ → AsyncLoop A T} {evs : ℕ → Option (AsyncEvent A T)} {n m : ℕ}

theorem Moves.waits (hm : Moves s handles queue e s' handles' queue') (h : s.Waits a)
    (hl : ¬s.Called s' a) (he : e ≠ .close a) : s'.Waits a := by
  obtain ⟨hactive, hcb, haw⟩ := h
  cases hm with
  | send t b hnone hb =>
    refine ⟨hactive, hcb, ?_⟩
    rcases eq_or_ne a b with rfl | hab
    · exact Function.update_self ..
    · exact (Function.update_of_ne hab ..).trans haw
  | found t p b hsend hp hb => exact ⟨hactive, hcb, haw⟩
  | read t b hsend hb => exact ⟨hactive, hcb, haw⟩
  | cmpxchg t b hsend hb => exact ⟨hactive, hcb, haw⟩
  | write t b k hsend hk => exact ⟨hactive, hcb, haw⟩
  | wake m hl hc => exact ⟨hactive, hcb, haw⟩
  | sleep hl hq => exact ⟨hactive, hcb, haw⟩
  | visit m b rest hl hq => exact ⟨hactive, hcb, haw⟩
  | idle b hl hb => exact ⟨hactive, hcb, haw⟩
  | skip b hl hb hcb' => exact ⟨hactive, hcb, haw⟩
  | call b hl' hb hcb' =>
    have hab : a ≠ b := by
      rintro rfl
      exact hl ⟨hl', rfl⟩
    exact ⟨hactive, hcb, (Function.update_of_ne hab ..).trans haw⟩
  | «return» b hl => exact ⟨hactive, hcb, haw⟩
  | init m b cb hu hb =>
    have hab : a ≠ b := by
      rintro rfl
      exact Bool.false_ne_true (hb.symm.trans hactive)
    exact ⟨(Function.update_of_ne hab ..).trans hactive, (Function.update_of_ne hab ..).trans hcb,
      (Function.update_of_ne hab ..).trans haw⟩
  | close m b hu hb =>
    have hab : a ≠ b := by
      rintro rfl
      exact he rfl
    exact ⟨(Function.update_of_ne hab ..).trans hactive, hcb, haw⟩

/-- The flag stays set until the callback is called. -/
theorem Moves.pending (hm : Moves s handles queue e s' handles' queue') (h : s.Waits a)
    (hl : ¬s.Called s' a) (hp : s.pending a = true) : s'.pending a = true := by
  cases hm with
  | send t b hnone hb => exact hp
  | found t p b hsend hp' hb => exact hp
  | read t b hsend hb => exact hp
  | cmpxchg t b hsend hb =>
    rcases eq_or_ne a b with rfl | hab
    · exact Function.update_self ..
    · exact (Function.update_of_ne hab ..).trans hp
  | write t b k hsend hk => exact hp
  | wake m hl hc => exact hp
  | sleep hl hq => exact hp
  | visit m b rest hl hq => exact hp
  | idle b hl hb => exact hp
  | skip b _ hb hcb' =>
    have hab : a ≠ b := by
      rintro rfl
      exact Bool.false_ne_true (hcb'.symm.trans h.2.1)
    exact (Function.update_of_ne hab ..).trans hp
  | call b hl' hb hcb' =>
    have hab : a ≠ b := by
      rintro rfl
      exact hl ⟨hl', rfl⟩
    exact (Function.update_of_ne hab ..).trans hp
  | «return» b hl => exact hp
  | init m b cb hu hb =>
    have hab : a ≠ b := by
      rintro rfl
      exact Bool.false_ne_true (hb.symm.trans h.1)
    exact (Function.update_of_ne hab ..).trans hp
  | close m b hu hb => exact hp

/-- A step of the loop thread in `uv__async_event` brings its end nearer. -/
theorem Moves.weight_lt (hm : Moves s handles queue .loop s' handles' queue') (hl : s.loop ≠ .poll) :
    weight s' queue' < weight s queue := by
  cases hm with
  | wake m hl' hc => exact absurd hl' hl
  | sleep hl' hq => simp [weight, hl', hq]
  | visit m b rest hl' hq =>
    simp only [weight, hl', hq, List.length_cons]
    omega
  | idle b hl' hb => simp [weight, hl']
  | skip b hl' hb hcb => simp [weight, hl']
  | call b hl' hb hcb => simp [weight, hl']
  | «return» b hl' => simp [weight, hl']

/-- The other events do not put it off. -/
theorem Moves.weight_le (hm : Moves s handles queue e s' handles' queue') (he : e ≠ .loop) :
    s'.loop = s.loop ∧ weight s' queue' ≤ weight s queue := by
  cases hm with
  | close m b hu hb =>
    refine ⟨rfl, Nat.add_le_add_right (Nat.mul_le_mul_left 3 ?_) _⟩
    exact List.length_erase_le
  | wake | sleep | visit | idle | skip | call | «return» => exact absurd rfl he
  | send | found | read | cmpxchg | write | init => exact ⟨rfl, le_rfl⟩

/-- **The loop thread comes back** from `uv__async_event`, and what its steps and those of the threads keep
holds then. -/
theorem Fair.drain (hf : Fair ss evs) {R : AsyncLoop A T → List A → Prop}
    (hR : ∀ k handles queue e handles' queue', n ≤ k → evs k = some e → Shape (ss k) handles queue →
      Moves (ss k) handles queue e (ss (k + 1)) handles' queue' → (ss k).loop ≠ .poll →
      R (ss k) queue → R (ss (k + 1)) queue')
    (r : ℕ) (hn : n ≤ m) (hl : (ss m).loop ≠ .poll)
    (h : ∃ handles queue, Shape (ss m) handles queue ∧ weight (ss m) queue ≤ r ∧ R (ss m) queue) :
    ∃ k, m ≤ k ∧ (ss k).loop = .poll ∧ ∃ handles queue, Shape (ss k) handles queue ∧ R (ss k) queue := by
  induction r generalizing m with
  | zero =>
    obtain ⟨handles, queue, -, hw, -⟩ := h
    have hpos : 0 < weight (ss m) queue := by
      unfold weight
      cases hloop : (ss m).loop with
      | poll => exact absurd hloop hl
      | visit => simp
      | test b => simp
      | callback b => simp
    omega
  | succ r ih =>
    obtain ⟨s', hs'⟩ : ∃ s', (ss m).step .loop = some s' := by
      obtain ⟨handles, queue, hs, -, -⟩ := h
      exact hs.stepLoop_isSome fun hc => absurd hc hl
    obtain ⟨k, hk, hev, hlk, handles, queue, hs, hw, hr⟩ := hf.run.until_event (e := .loop)
      (I := fun s => s.loop ≠ .poll ∧ ∃ handles queue, Shape s handles queue ∧
        weight s queue ≤ r + 1 ∧ R s queue) (fun k e' hk he' hne hI hstep => by
          obtain ⟨hlk, handles, queue, hs, hw, hr⟩ := hI
          obtain ⟨handles', queue', hm, hs'⟩ := hs.moves hstep
          obtain ⟨hloop, hle⟩ := hm.weight_le hne
          exact ⟨hloop ▸ hlk, handles', queue', hs', hle.trans hw,
            hR k _ _ _ _ _ (hn.trans hk) he' hs hm hlk hr⟩) ⟨hl, h⟩ (hf.loop m s' hs')
    obtain ⟨handles', queue', hm, hs''⟩ := hs.moves (hf.run.step_of_event hev)
    have hlt := hm.weight_lt hlk
    have hr' := hR k _ _ _ _ _ (hn.trans hk) hev hs hm hlk hr
    by_cases hpoll : (ss (k + 1)).loop = .poll
    · exact ⟨k + 1, by omega, hpoll, handles', queue', hs'', hr'⟩
    · obtain ⟨j, hj, hres⟩ := ih (m := k + 1) (by omega) hpoll ⟨handles', queue', hs'', by omega, hr'⟩
      exact ⟨j, by omega, hres⟩

/-- A handle whose flag is set stays in the queue of `uv__async_event` until its callback is called. -/
theorem Moves.queued (hm : Moves s handles queue e s' handles' queue') (hw : s.Waits a)
    (hp : s.pending a = true) (hl : ¬s.Called s' a) (he : e ≠ .close a) (hpoll : s.loop ≠ .poll)
    (h : a ∈ queue ∨ s.loop = .test a) : a ∈ queue' ∨ s'.loop = .test a := by
  cases hm with
  | send | found | read | cmpxchg | write | init => exact h
  | wake m hl' hc => exact absurd hl' hpoll
  | sleep hl' hq =>
    rw [hl', hq] at h
    rcases h with h | h
    · exact absurd h List.not_mem_nil
    · cases h
  | visit m b rest hl' hq =>
    rw [hl', hq, List.mem_cons] at h
    rcases h with (rfl | h) | h
    · exact .inr rfl
    · exact .inl h
    · cases h
  | idle b hl' hb =>
    refine .inl (h.resolve_right fun hc => ?_)
    rw [hl'] at hc
    cases hc
    exact Bool.false_ne_true (hb.symm.trans hp)
  | skip b hl' hb hcb =>
    refine .inl (h.resolve_right fun hc => ?_)
    rw [hl'] at hc
    cases hc
    exact Bool.false_ne_true (hcb.symm.trans hw.2.1)
  | call b hl' hb hcb =>
    refine .inl (h.resolve_right fun hc => ?_)
    rw [hl'] at hc
    cases hc
    exact hl ⟨hl', rfl⟩
  | «return» b hl' =>
    refine .inl (h.resolve_right fun hc => ?_)
    rw [hl'] at hc
    cases hc
  | close m b hu hb =>
    have hab : a ≠ b := by
      rintro rfl
      exact he rfl
    exact h.imp_left fun hmem => (List.mem_erase_of_ne hab).2 hmem

/-- A thread in `uv_async_send` stays where it is until it goes on. -/
theorem Moves.sender {c : SendPoint × A} (hm : Moves s handles queue e s' handles' queue')
    (he : e ≠ .sender t) (h : s.sender t = some c) : s'.sender t = some c := by
  cases hm with
  | send u b hnone hb =>
    have htu : t ≠ u := by
      rintro rfl
      rw [hnone] at h
      cases h
    exact (Function.update_of_ne htu ..).trans h
  | found u | read u | cmpxchg u | write u =>
    have htu : t ≠ u := by
      rintro rfl
      exact he rfl
    exact (Function.update_of_ne htu ..).trans h
  | wake | sleep | visit | idle | skip | call | «return» | init | close => exact h

/-- The `eventfd` can be read until the loop thread reads it. -/
theorem Moves.counter (hm : Moves s handles queue e s' handles' queue')
    (he : e = .loop → s.loop ≠ .poll) (h : 0 < s.counter) : 0 < s'.counter := by
  cases hm with
  | wake m hl hc => exact absurd hl (he rfl)
  | write t b k hsend hk => exact hk
  | send | found | read | cmpxchg | sleep | visit | idle | skip | call | «return» | init | close => exact h

/-- A thread that goes on comes to its next step as it was. -/
theorem Fair.next_sender {c : SendPoint × A} (hf : Fair ss evs) (hinv : ∀ k, (ss k).Inv)
    (h : (ss n).sender t = some c) :
    ∃ k, n ≤ k ∧ evs k = some (.sender t) ∧ (ss k).sender t = some c := by
  obtain ⟨k, hk, hev, -, hsend⟩ := hf.run.until_event (e := .sender t)
    (I := fun s => s.Inv ∧ s.sender t = some c) (fun k e' _ _ hne hI hstep => by
      obtain ⟨⟨handles, queue, hs, ha⟩, hsend⟩ := hI
      obtain ⟨handles', queue', hm, hs'⟩ := hs.moves hstep
      exact ⟨⟨handles', queue', hs', ha.moves hs hm⟩, hm.sender hne hsend⟩) ⟨hinv n, h⟩
      (hf.sender n t (by simp [h]))
  exact ⟨k, hk, hev, hsend⟩

/-- A thread that is about to set the flag does so, or finds it set. -/
theorem Fair.eventually_pending (hf : Fair ss evs) (hinv : ∀ k, (ss k).Inv) (h : (ss n).Asking a) :
    ∃ k, n ≤ k ∧ (ss k).pending a = true := by
  have hcmpxchg : ∀ n t, (ss n).sender t = some (.cmpxchg, a) →
      ∃ k, n ≤ k ∧ (ss k).pending a = true := by
    intro n t hsend
    obtain ⟨k, hk, hev, hsend⟩ := hf.next_sender hinv hsend
    by_cases hpend : (ss k).pending a = true
    · exact ⟨k, hk, hpend⟩
    · have hstep := hf.run.step_of_event hev
      rw [step, stepSender, hsend] at hstep
      simp only [hpend] at hstep
      refine ⟨k + 1, by omega, ?_⟩
      rw [← Option.some.inj hstep]
      exact Function.update_self ..
  obtain ⟨t, p, hsend, hp⟩ := h
  rcases p with _ | _ | _
  · obtain ⟨k, hk, hev, hsend⟩ := hf.next_sender hinv hsend
    by_cases hpend : (ss k).pending a = true
    · exact ⟨k, hk, hpend⟩
    · have hstep := hf.run.step_of_event hev
      rw [step, stepSender, hsend] at hstep
      simp only [hpend] at hstep
      obtain ⟨j, hj, hres⟩ := hcmpxchg (k + 1) t (by
        rw [← Option.some.inj hstep]
        exact Function.update_self ..)
      exact ⟨j, by omega, hres⟩
  · exact hcmpxchg n t hsend
  · exact absurd rfl hp

/-- A thread that is about to write to the `eventfd` does so. -/
theorem Fair.eventually_counter (hf : Fair ss evs) (hinv : ∀ k, (ss k).Inv) (h : (ss n).Signalled) :
    ∃ k, n ≤ k ∧ 0 < (ss k).counter := by
  rcases h with hc | ⟨t, c, hsend⟩
  · exact ⟨n, le_rfl, hc⟩
  · obtain ⟨k, hk, hev, hsend⟩ := hf.next_sender hinv hsend
    have hstep := hf.run.step_of_event hev
    rw [step, stepSender, hsend] at hstep
    refine ⟨k + 1, by omega, ?_⟩
    rw [← Option.some.inj hstep]
    show 0 < ite _ _ _
    split_ifs <;> omega

/-- The loop thread that sleeps while the `eventfd` can be read wakes up, with all handles to visit. -/
theorem Fair.eventually_woken (hf : Fair ss evs) (hinv : ∀ k, (ss k).Inv) (hl : (ss n).loop = .poll)
    (hc : 0 < (ss n).counter) : ∃ k, n ≤ k ∧ evs k = some .loop ∧ ∃ handles,
      Shape (ss k) handles [] ∧ Shape (ss (k + 1)) [] handles ∧ (ss (k + 1)).loop = .visit := by
  obtain ⟨handles, queue, hs, -⟩ := hinv n
  obtain ⟨s', hs'⟩ := hs.stepLoop_isSome fun _ => hc
  obtain ⟨k, hk, hev, ⟨handles, queue, hs, -⟩, hlk, hck⟩ := hf.run.until_event (e := .loop)
    (I := fun s => s.Inv ∧ s.loop = .poll ∧ 0 < s.counter) (fun k e' _ _ hne hI hstep => by
      obtain ⟨⟨handles, queue, hs, ha⟩, hlk, hck⟩ := hI
      obtain ⟨handles', queue', hm, hs'⟩ := hs.moves hstep
      exact ⟨⟨handles', queue', hs', ha.moves hs hm⟩, (hm.weight_le hne).1.trans hlk,
        hm.counter (fun hc => absurd hc hne) hck⟩) ⟨hinv n, hl, hc⟩ (hf.loop n s' hs')
  obtain ⟨handles', queue', hm, hs'⟩ := hs.moves (hf.run.step_of_event hev)
  obtain rfl := hs.asleep hlk
  refine ⟨k, hk, hev, handles, hs, ?_⟩
  cases hloop : ss (k + 1) with
  | mk q p cb ac co lo se aw =>
    rw [hloop] at hm hs'
    cases hm with
    | wake m _ _ => exact ⟨hs', rfl⟩
    | sleep hl' _ | visit _ _ _ hl' _ | idle _ hl' _ | skip _ hl' _ _ | call _ hl' _ _ | «return» _ hl' =>
      rw [hlk] at hl'
      cases hl'

/-- **Every call of `uv_async_send` is answered**: whatever the threads and the callbacks do, a handle that is
awaited has its callback called, unless the loop thread closes it. -/
theorem eventually_called (hf : Fair ss evs) (hinit : (ss 0).IsInit) (hw : (ss n).Waits a) :
    ∃ m, n ≤ m ∧ ((ss m).Called (ss (m + 1)) a ∨ evs m = some (.close a)) := by
  by_contra hnever
  push Not at hnever
  have hinv : ∀ k, (ss k).Inv := fun k =>
    hf.run.keep (I := Inv) (a := 0) (fun _ _ _ _ h hstep => h.step hstep) hinit.inv (Nat.zero_le k)
  have hwaits : ∀ k, n ≤ k → (ss k).Waits a := fun k hk =>
    hf.run.keep (I := fun s => s.Waits a) (fun j e hj he h hstep => by
      obtain ⟨handles, queue, hs, -⟩ := hinv j
      obtain ⟨handles', queue', hm, -⟩ := hs.moves hstep
      exact hm.waits h (hnever j hj).1 fun hc => (hnever j hj).2 (hc ▸ he)) hw hk
  -- the flag is set, and stays set
  obtain ⟨m, hm, hpend⟩ : ∃ m, n ≤ m ∧ (ss m).pending a = true := by
    obtain ⟨handles, queue, hs, hatt⟩ := hinv n
    rcases hatt.sent a hw.1 hw.2.1 hw.2.2 with hp | hask
    · exact ⟨n, le_rfl, hp⟩
    · exact hf.eventually_pending hinv hask
  have hpending : ∀ k, m ≤ k → (ss k).pending a = true := fun k hk =>
    hf.run.keep (I := fun s => s.pending a = true) (fun j e hj he h hstep => by
      obtain ⟨handles, queue, hs, -⟩ := hinv j
      obtain ⟨handles', queue', hm', -⟩ := hs.moves hstep
      exact hm'.pending (hwaits j (hm.trans hj)) (hnever j (hm.trans hj)).1 h) hpend hk
  -- a turn of `uv__async_event` with the handle in its queue does not end without the call
  have hturn : ∀ k, m ≤ k → (ss k).loop ≠ .poll →
      ∀ handles queue, Shape (ss k) handles queue → ¬(a ∈ queue ∨ (ss k).loop = .test a) := by
    intro k hk hl handles queue hs hmem
    obtain ⟨j, hj, hlj, handles', queue', hs', hmem'⟩ := hf.drain (n := m)
      (R := fun s queue => a ∈ queue ∨ s.loop = .test a)
      (fun i _ _ e _ _ hi he _ hm' hli hR => hm'.queued (hwaits i (hm.trans hi)) (hpending i hi)
        (hnever i (hm.trans hi)).1 (fun hc => (hnever i (hm.trans hi)).2 (hc ▸ he)) hli hR)
      (weight (ss k) queue) hk hl ⟨handles, queue, hs, le_rfl, hmem⟩
    rw [hs'.asleep hlj, hlj] at hmem'
    rcases hmem' with hmem' | hmem'
    · exact List.not_mem_nil hmem'
    · cases hmem'
  -- so the handle is in no queue, and the `eventfd` is to be read: the loop thread sleeps, and wakes up
  obtain ⟨handles, queue, hs, hatt⟩ := hinv m
  have hsig : (ss m).Signalled := by
    rcases hatt.flag a (hwaits m hm).1 hpend with hsig | hmem
    · exact hsig
    · refine absurd hmem (hturn m le_rfl (fun hl => ?_) handles queue hs)
      rw [hs.asleep hl, hl] at hmem
      rcases hmem with hmem | hmem
      · exact List.not_mem_nil hmem
      · cases hmem
  obtain ⟨k, hk, hc⟩ := hf.eventually_counter hinv hsig
  obtain ⟨j, hj, hlj, hcj⟩ : ∃ j, k ≤ j ∧ (ss j).loop = .poll ∧ 0 < (ss j).counter := by
    by_cases hl : (ss k).loop = .poll
    · exact ⟨k, le_rfl, hl, hc⟩
    · obtain ⟨handles, queue, hs, -⟩ := hinv k
      obtain ⟨j, hj, hlj, -, -, -, hcj⟩ := hf.drain (n := k) (R := fun s _ => 0 < s.counter)
        (fun i _ _ e _ _ _ _ _ hm' hli hR => hm'.counter (fun _ => hli) hR)
        (weight (ss k) queue) le_rfl hl ⟨handles, queue, hs, le_rfl, hc⟩
      exact ⟨j, hj, hlj, hcj⟩
  obtain ⟨i, hi, -, handles, -, hs, hl⟩ := hf.eventually_woken hinv hlj hcj
  refine hturn (i + 1) (by omega) (by simp [hl]) [] handles hs (.inl ?_)
  exact (hs.active a).1 (hwaits (i + 1) (by omega)).1

theorem eventually_called_once : ∃ m, 2 ≤ m ∧
    ((finiteRun step emptyLoop sendOnce m).Called (finiteRun step emptyLoop sendOnce (m + 1)) () ∨
      sendOnce[m]? = some (.close ())) := by
  have hlast : ∀ n, 10 ≤ n → finiteRun step emptyLoop sendOnce n = finiteRun step emptyLoop sendOnce 10 := by
    intro n hn
    rw [finiteRun, List.take_of_length_le (by simpa [sendOnce] using hn)]
    rfl
  have hf : Fair (finiteRun step emptyLoop sendOnce) (fun n => sendOnce[n]?) := by
    refine ⟨behaviour_finiteRun (t := finiteRun step emptyLoop sendOnce 10) rfl, fun n t hn => ?_,
      fun n s hn => ?_⟩
    · rcases Nat.lt_or_ge n 5 with h5 | h5
      · exact ⟨4, by omega, rfl⟩
      · refine absurd ?_ hn
        rcases Nat.lt_or_ge n 10 with h10 | h10
        · interval_cases n <;> rfl
        · rw [hlast n h10]
          rfl
    · rcases Nat.lt_or_ge n 10 with h10 | h10
      · exact ⟨9, by omega, rfl⟩
      · rw [hlast n h10] at hn
        cases hn
  exact eventually_called hf emptyLoop_isInit ⟨rfl, rfl, rfl⟩

end Liveness

end SimpleUv.Libuv.AsyncLoop
