import SimpleUv.Libuv.Timer

/-!
# The timers that `uv__run_timers` calls

Whatever the callbacks start and stop, the timers that are called come in the order of the time they are
due and of their starts, and none before its time (`uvRunTimers_sorted`): a start in a callback is never
before the timer that is called, since it counts from the time of the loop and has a new number. This is
what every call keeps (`After`). When no callback starts a timer for at once, the loop breaks, and then no
timer is due any more (`uvRunTimers_ends`).
-/

namespace SimpleUv.Libuv.TimerLoop

variable {A Cb : Type} [DecidableEq A] {L L' L'' : TimerLoop A Cb} {a b : A} {k : ℕ ×ₗ ℕ}
  {op : TimerOp A Cb} {ops : List (TimerOp A Cb)} {behave : Cb → A → TimerLoop A Cb → List (TimerOp A Cb)}

/-- The clock of the calls does not go back. -/
def ClockRises (time : UInt64) : List (TimerOp A Cb) → Prop
  | [] => True
  | .updateTime now :: ops => time ≤ now ∧ ClockRises now ops
  | _ :: ops => ClockRises time ops

/-- The call starts no timer for at once, and leaves the clock alone. -/
def Quiet : TimerOp A Cb → Prop
  | .start _ _ timeout _ => timeout ≠ 0
  | .updateTime _ => False
  | _ => True

/-- The timer that a call is about. -/
def target : TimerOp A Cb → Option A
  | .start a _ _ _ => some a
  | .stop a => some a
  | .again a => some a
  | .setRepeat a _ => some a
  | .updateTime _ => none

/-- The timers that are due. -/
def due (L : TimerLoop A Cb) : Set A := {a | a ∈ L.waiting ∧ (L.timer a).timeout ≤ L.time}

/-- What a call changes. -/
inductive Effect (L : TimerLoop A Cb) (op : TimerOp A Cb) (L' : TimerLoop A Cb) : Prop where
  | same (h : L' = L)
  | started (a : A) (cb : Cb) (timeout rep : UInt64) (on : target op = some a)
      (quiet : Quiet op → timeout ≠ 0)
      (time : L'.time = L.time) (counter : L'.timerCounter = L.timerCounter + 1)
      (timer : L'.timer = Function.update L.timer a
        ⟨some cb, clampedTimeout L.time timeout, rep, L.timerCounter, true⟩)
  | stopped (a : A) (on : target op = some a) (time : L'.time = L.time) (counter : L'.timerCounter = L.timerCounter)
      (timer : L'.timer = Function.update L.timer a { L.timer a with active := false })
  | repeats (a : A) (rep : UInt64) (on : target op = some a) (time : L'.time = L.time)
      (counter : L'.timerCounter = L.timerCounter)
      (timer : L'.timer = Function.update L.timer a { L.timer a with repeatTime := rep })
  | clock (now : UInt64) (h : op = .updateTime now) (h' : L' = { L with time := now })

/-- **A call follows no `NULL` link**, and changes one timer at most, or the clock. -/
theorem Valid.apply [Finite A] (hA : Nat.card A < 2 ^ 32) (hL : Valid L) (op : TimerOp A Cb)
    (hc : L.timerCounter.toNat + 1 < 2 ^ 64) :
    ∃ L', L.apply op = some L' ∧ Valid L' ∧ Effect L op L' := by
  cases op with
  | start a cb timeout rep =>
    cases cb with
    | none => exact ⟨L, rfl, hL, .same rfl⟩
    | some cb =>
      obtain ⟨L', hs, hL', htime, hcount, htimer⟩ := hL.uvTimerStart hA a cb timeout rep hc
      exact ⟨L', by rw [TimerLoop.apply, hs]; rfl, hL', .started a cb timeout rep rfl id htime hcount htimer⟩
  | stop a =>
    obtain ⟨L', hs, hL', htime, hcount, htimer⟩ := hL.uvTimerStop a
    exact ⟨L', hs, hL', .stopped a rfl htime hcount htimer⟩
  | again a =>
    obtain ⟨-, r, hs⟩ | ⟨cb, L', -, hrep, hs, hL', htime, hcount, htimer⟩ := hL.uvTimerAgain hA a hc
    · exact ⟨L, by rw [TimerLoop.apply, hs]; rfl, hL, .same rfl⟩
    · exact ⟨L', by rw [TimerLoop.apply, hs]; rfl, hL',
        .started a cb _ _ rfl (fun _ => hrep) htime hcount htimer⟩
  | setRepeat a rep =>
    have hw : (L.uvTimerSetRepeat a rep).waiting = L.waiting := by
      ext b
      rcases eq_or_ne b a with rfl | hba
      · simp [waiting, uvTimerSetRepeat, setTimer]
      · simp [waiting, uvTimerSetRepeat, setTimer, hba]
    refine ⟨_, rfl, hL.mono (fun b hb => ?_) (hw ▸ hL.heap) rfl, .repeats a rep rfl rfl rfl rfl⟩
    rw [hw] at hb
    rcases eq_or_ne b a with rfl | hba
    · exact ⟨hb, rep, Function.update_self ..⟩
    · exact ⟨hb, (L.timer b).repeatTime, Function.update_of_ne hba ..⟩
  | updateTime now =>
    exact ⟨_, rfl, hL.mono (fun b hb => ⟨hb, (L.timer b).repeatTime, rfl⟩) hL.heap rfl, .clock now rfl rfl⟩

/-- All timers that wait, and all that are started from now on, are after `k`. -/
structure After (k : ℕ ×ₗ ℕ) (L : TimerLoop A Cb) : Prop where
  waiting : ∀ a ∈ L.waiting, k < dueKey (L.timer a)
  time : (ofLex k).1 ≤ L.time.toNat
  counter : (ofLex k).2 < L.timerCounter.toNat

theorem le_clampedTimeout (time timeout : UInt64) :
    time.toNat ≤ (clampedTimeout time timeout).toNat := by
  rw [clampedTimeout]
  split_ifs with h
  · have := time.toNat_lt
    simp
    omega
  · rw [UInt64.lt_iff_toNat_lt, UInt64.toNat_add] at h
    rw [UInt64.toNat_add]
    have h1 := time.toNat_lt
    have h2 := timeout.toNat_lt
    omega

/-- A start for later is not due, but at the end of the clock. -/
theorem lt_clampedTimeout {time timeout : UInt64} (h0 : timeout ≠ 0) (ht : time.toNat + 1 < 2 ^ 64) :
    time.toNat < (clampedTimeout time timeout).toNat := by
  have hpos : timeout.toNat ≠ 0 := fun hc => h0 (UInt64.toNat_inj.1 hc)
  rw [clampedTimeout]
  split_ifs with h
  · simp
    omega
  · rw [UInt64.lt_iff_toNat_lt, UInt64.toNat_add] at h
    rw [UInt64.toNat_add]
    have h1 := time.toNat_lt
    have h2 := timeout.toNat_lt
    omega

namespace Effect

theorem counter (he : Effect L op L') (hc : L.timerCounter.toNat + 1 < 2 ^ 64) :
    L.timerCounter.toNat ≤ L'.timerCounter.toNat ∧
      L'.timerCounter.toNat ≤ L.timerCounter.toNat + 1 := by
  have hnext : (L.timerCounter + 1).toNat = L.timerCounter.toNat + 1 := by
    rw [UInt64.toNat_add]
    exact Nat.mod_eq_of_lt hc
  cases he with
  | same h => subst h; omega
  | started a cb timeout rep _ _ _ counter _ => rw [counter]; omega
  | stopped a _ _ counter _ => rw [counter]; omega
  | repeats a rep _ _ counter _ => rw [counter]; omega
  | clock now _ h' => subst h'; exact ⟨le_rfl, Nat.le_succ _⟩

/-- What is after `k` stays after it. -/
theorem after (he : Effect L op L') (hc : L.timerCounter.toNat + 1 < 2 ^ 64) (htime : L.time ≤ L'.time)
    (ha : After k L) : After k L' := by
  refine ⟨?_, ha.time.trans (UInt64.le_iff_toNat_le.1 htime), ha.counter.trans_le (he.counter hc).1⟩
  intro b hb
  cases he with
  | same h => subst h; exact ha.waiting b hb
  | started a cb timeout rep _ _ _ counter timer =>
    rcases eq_or_ne b a with rfl | hba
    · rw [timer, Function.update_self, dueKey, Prod.Lex.lt_iff]
      have h1 := ha.time.trans (le_clampedTimeout L.time timeout)
      have h2 := ha.counter
      rcases h1.lt_or_eq with h1 | h1
      exacts [Or.inl h1, Or.inr ⟨h1, h2⟩]
    · rw [waiting, Set.mem_ofPred_eq, timer, Function.update_of_ne hba] at hb
      rw [timer, Function.update_of_ne hba]
      exact ha.waiting b hb
  | stopped a _ _ counter timer =>
    rcases eq_or_ne b a with rfl | hba
    · rw [waiting, Set.mem_ofPred_eq, timer, Function.update_self] at hb
      cases hb
    · rw [waiting, Set.mem_ofPred_eq, timer, Function.update_of_ne hba] at hb
      rw [timer, Function.update_of_ne hba]
      exact ha.waiting b hb
  | repeats a rep _ _ counter timer =>
    rcases eq_or_ne b a with rfl | hba
    · rw [waiting, Set.mem_ofPred_eq, timer, Function.update_self] at hb
      rw [timer, Function.update_self]
      exact ha.waiting b hb
    · rw [waiting, Set.mem_ofPred_eq, timer, Function.update_of_ne hba] at hb
      rw [timer, Function.update_of_ne hba]
      exact ha.waiting b hb
  | clock now _ h' => subst h'; exact ha.waiting b hb

/-- A quiet call makes no timer due. -/
theorem due (he : Effect L op L') (hq : Quiet op) (ht : L.time.toNat + 1 < 2 ^ 64) :
    L'.time = L.time ∧ L'.due ⊆ L.due := by
  cases he with
  | same h => subst h; exact ⟨rfl, subset_rfl⟩
  | started a cb timeout rep _ quiet time _ timer =>
    refine ⟨time, fun b hb => ?_⟩
    obtain ⟨hw, hdue⟩ := hb
    rcases eq_or_ne b a with rfl | hba
    · rw [timer, Function.update_self, time, UInt64.le_iff_toNat_le] at hdue
      exact absurd hdue (lt_clampedTimeout (quiet hq) ht).not_ge
    · rw [waiting, Set.mem_ofPred_eq, timer, Function.update_of_ne hba] at hw
      rw [timer, Function.update_of_ne hba, time] at hdue
      exact ⟨hw, hdue⟩
  | stopped a _ time _ timer =>
    refine ⟨time, fun b hb => ?_⟩
    obtain ⟨hw, hdue⟩ := hb
    rcases eq_or_ne b a with rfl | hba
    · rw [waiting, Set.mem_ofPred_eq, timer, Function.update_self] at hw
      cases hw
    · rw [waiting, Set.mem_ofPred_eq, timer, Function.update_of_ne hba] at hw
      rw [timer, Function.update_of_ne hba, time] at hdue
      exact ⟨hw, hdue⟩
  | repeats a rep _ time _ timer =>
    refine ⟨time, fun b hb => ?_⟩
    obtain ⟨hw, hdue⟩ := hb
    rcases eq_or_ne b a with rfl | hba
    · rw [waiting, Set.mem_ofPred_eq, timer, Function.update_self] at hw
      rw [timer, Function.update_self, time] at hdue
      exact ⟨hw, hdue⟩
    · rw [waiting, Set.mem_ofPred_eq, timer, Function.update_of_ne hba] at hw
      rw [timer, Function.update_of_ne hba, time] at hdue
      exact ⟨hw, hdue⟩
  | clock now h _ => subst h; exact absurd hq id

theorem time (he : Effect L op L') (hop : ∀ now, op ≠ .updateTime now) : L'.time = L.time := by
  cases he with
  | same h => rw [h]
  | started a cb timeout rep _ _ time _ _ => exact time
  | stopped a _ time _ _ => exact time
  | repeats a rep _ time _ _ => exact time
  | clock now h _ => exact absurd h (hop now)

/-- A call leaves the other timers as they are. -/
theorem other (he : Effect L op L') (hb : target op ≠ some b) : L'.timer b = L.timer b := by
  have hne : ∀ a, target op = some a → b ≠ a := fun a ha hba => hb (hba ▸ ha)
  cases he with
  | same h => rw [h]
  | started a cb timeout rep on _ _ _ timer => rw [timer, Function.update_of_ne (hne a on)]
  | stopped a on _ _ timer => rw [timer, Function.update_of_ne (hne a on)]
  | repeats a rep on _ _ timer => rw [timer, Function.update_of_ne (hne a on)]
  | clock now _ h => rw [h]

end Effect

/-! ### Calls one after another -/

/-- What calls one after another keep and change, `n` of them at most. -/
structure Advances (n : ℕ) (quiet : Prop) (L L' : TimerLoop A Cb) : Prop where
  valid : Valid L'
  time : L.time ≤ L'.time
  counter : L'.timerCounter.toNat ≤ L.timerCounter.toNat + n
  after : ∀ k, After k L → After k L'
  due : quiet → L.time.toNat + 1 < 2 ^ 64 → L'.time = L.time ∧ L'.due ⊆ L.due

omit [DecidableEq A] in
theorem Advances.refl (hL : Valid L) (quiet : Prop) : Advances 0 quiet L L :=
  ⟨hL, UInt64.le_refl _, le_rfl, fun _ ha => ha, fun _ _ => ⟨rfl, subset_rfl⟩⟩

omit [DecidableEq A] in
theorem Advances.trans {m n : ℕ} {q q' : Prop} (h : Advances m q L L') (h' : Advances n q' L' L'') :
    Advances (m + n) (q ∧ q') L L'' where
  valid := h'.valid
  time := UInt64.le_trans h.time h'.time
  counter := by have := h.counter; have := h'.counter; omega
  after k ha := h'.after k (h.after k ha)
  due hq ht := by
    obtain ⟨htime, hdue⟩ := h.due hq.1 ht
    obtain ⟨htime', hdue'⟩ := h'.due hq.2 (by rwa [htime])
    exact ⟨htime'.trans htime, hdue'.trans hdue⟩

omit [DecidableEq A] in
theorem Advances.mono {m n : ℕ} {q q' : Prop} (h : Advances m q L L') (hmn : m ≤ n) (hq : q' → q) :
    Advances n q' L L' :=
  ⟨h.valid, h.time, h.counter.trans (by omega), h.after, fun h' ht => h.due (hq h') ht⟩

theorem Effect.advances (he : Effect L op L') (hL' : Valid L') (htime : L.time ≤ L'.time)
    (hc : L.timerCounter.toNat + 1 < 2 ^ 64) : Advances 1 (Quiet op) L L' :=
  ⟨hL', htime, (he.counter hc).2, fun _ ha => he.after hc htime ha, fun hq ht => he.due hq ht⟩

/-- The calls of a callback follow no `NULL` link. -/
theorem Valid.foldlM_apply [Finite A] (hA : Nat.card A < 2 ^ 32) (hL : Valid L)
    (hc : L.timerCounter.toNat + ops.length < 2 ^ 64) (hclock : ClockRises L.time ops) :
    ∃ L', ops.foldlM TimerLoop.apply L = some L' ∧
      Advances ops.length (∀ op ∈ ops, Quiet op) L L' ∧
      ∀ b, (∀ op ∈ ops, target op ≠ some b) → L'.timer b = L.timer b := by
  induction ops generalizing L with
  | nil => exact ⟨L, rfl, .refl hL _, fun _ _ => rfl⟩
  | cons op ops ih =>
    rw [List.length_cons] at hc
    obtain ⟨L₁, happly, hL₁, he⟩ := hL.apply hA op (by omega)
    have hcount := he.counter (by omega)
    have htime : L.time ≤ L₁.time ∧ ClockRises L₁.time ops := by
      by_cases hop : ∃ now, op = .updateTime now
      · obtain ⟨now, rfl⟩ := hop
        obtain rfl : { L with time := now } = L₁ := by simpa [TimerLoop.apply] using happly
        exact hclock
      · rw [he.time fun now hnow => hop ⟨now, hnow⟩]
        refine ⟨UInt64.le_refl _, ?_⟩
        cases op with
        | updateTime now => exact absurd ⟨now, rfl⟩ hop
        | _ => exact hclock
    obtain ⟨L', hrest, hadv, hother⟩ := ih hL₁ (by omega) htime.2
    refine ⟨L', by rw [List.foldlM_cons, happly]; exact hrest, ?_, fun b hb => ?_⟩
    · refine ((he.advances hL₁ htime.1 (by omega)).trans hadv).mono ?_ fun hq => ?_
      · rw [List.length_cons, Nat.add_comm]
      · exact ⟨hq op List.mem_cons_self, fun o ho => hq o (List.mem_cons_of_mem op ho)⟩
    · rw [hother b fun o ho => hb o (List.mem_cons_of_mem op ho), he.other (hb op List.mem_cons_self)]

omit [DecidableEq A] in
/-- A loop with an empty heap in which no timer waits: `uv_loop_init`. -/
theorem Valid.init [Nonempty A] (hheap : L.heap = L.heap.heapInit) (hw : ∀ a, (L.timer a).active = false) :
    Valid L := by
  have hempty : L.waiting = ∅ := Set.eq_empty_iff_forall_notMem.2 fun a ha =>
    Bool.false_ne_true ((hw a).symm.trans ha)
  refine ⟨?_, ?_, ?_, ?_⟩ <;> rw [hempty]
  · rw [hheap]
    exact IsHeap.heapInit _ _
  · exact fun a ha => absurd ha (Set.notMem_empty a)
  · exact fun a ha => absurd ha (Set.notMem_empty a)
  · exact fun a ha => absurd ha (Set.notMem_empty a)

/-- A loop in which two timers wait. -/
theorem exists_waiting : ∃ L : TimerLoop Bool Unit, Valid L ∧ L.waiting = Set.univ ∧ L.time = 0 ∧
    L.timerCounter = 2 := by
  have h₀ : Valid (⟨⟨none, 0, fun _ => ⟨none, none, none⟩⟩, 0, 0, fun _ => ⟨none, 0, 0, 0, false⟩⟩ :
    TimerLoop Bool Unit) := .init rfl fun _ => rfl
  have hcard : Nat.card Bool < 2 ^ 32 := by simp
  obtain ⟨L₁, -, h₁, ht₁, hc₁, htimer₁⟩ := h₀.uvTimerStart hcard true () 0 7 (by decide)
  obtain ⟨L₂, -, h₂, ht₂, hc₂, htimer₂⟩ := h₁.uvTimerStart hcard false () 5 0 (by rw [hc₁]; decide)
  refine ⟨L₂, h₂, Set.eq_univ_of_forall fun b => ?_, ht₂.trans ht₁, by rw [hc₂, hc₁]; rfl⟩
  rw [waiting, Set.mem_ofPred_eq, htimer₂, htimer₁]
  cases b <;> rfl

/-! ### The rounds of `uv__run_timers` -/

/-- What is asked of the callbacks: each makes at most `m` calls, and reads a clock that does not go back. -/
def Bounded (behave : Cb → A → TimerLoop A Cb → List (TimerOp A Cb)) (m : ℕ) : Prop :=
  ∀ cb a L, (behave cb a L).length ≤ m ∧ ClockRises L.time (behave cb a L)

/-- Every callback leaves the other timers alone. -/
def Own (behave : Cb → A → TimerLoop A Cb → List (TimerOp A Cb)) : Prop :=
  ∀ cb a L, ∀ op ∈ behave cb a L, ∀ b, target op = some b → b = a

/-- What a round that does not break does: it calls the first timer that waits, which is due. -/
structure Calls (m : ℕ) (quiet own : Prop) (a : A) (L L' : TimerLoop A Cb) : Prop
    extends Advances (m + 1) quiet L L' where
  waiting : a ∈ L.waiting
  isDue : (L.timer a).timeout ≤ L.time
  first : ∀ b ∈ L.waiting, dueKey (L.timer a) ≤ dueKey (L.timer b)
  afterCall : After (dueKey (L.timer a)) L'
  removed : quiet → L.time.toNat + 1 < 2 ^ 64 → a ∉ L'.due
  others : own → ∀ b, b ≠ a → L'.timer b = L.timer b

/-- **A round follows no `NULL` link.** It breaks when no timer is due, and else calls the first one. -/
theorem Valid.runTimersRound [Finite A] {m : ℕ} (hA : Nat.card A < 2 ^ 32) (hb : Bounded behave m)
    (hL : Valid L) (hc : L.timerCounter.toNat + (m + 1) < 2 ^ 64) :
    (L.runTimersRound behave = some none ∧ L.due = ∅) ∨
    ∃ a L', L.runTimersRound behave = some (some (a, L')) ∧
      Calls m (∀ cb a L, ∀ op ∈ behave cb a L, Quiet op) (Own behave) a L L' := by
  obtain ⟨hmin, hempty⟩ := hL.heap.heapMin
  rw [TimerLoop.runTimersRound]
  cases hm : L.heap.heapMin with
  | none =>
    refine Or.inl ⟨rfl, Set.eq_empty_iff_forall_notMem.2 fun b hb => ?_⟩
    exact Set.notMem_empty b (hempty.1 hm ▸ hb.1)
  | some a =>
    obtain ⟨ha, hfirst⟩ := hmin a hm
    by_cases hlate : L.time < (L.timer a).timeout
    · refine Or.inl ⟨by simp [hlate], Set.eq_empty_iff_forall_notMem.2 fun b hb => ?_⟩
      have hle := hfirst b hb.1
      have hbdue := UInt64.le_iff_toNat_le.1 hb.2
      have hlt := UInt64.lt_iff_toNat_lt.1 hlate
      rw [dueKey, dueKey, Prod.Lex.toLex_le_toLex] at hle
      simp only at hle
      omega
    have hdue : (L.timer a).timeout ≤ L.time := UInt64.not_lt.1 hlate
    obtain ⟨L₁, hstop, hL₁, htime, hcount, htimer⟩ := hL.uvTimerStop a
    -- without the first timer, what waits is after it
    have hw₁ : ∀ b ∈ L₁.waiting, b ≠ a ∧ b ∈ L.waiting ∧ L₁.timer b = L.timer b := by
      intro b hb
      rcases eq_or_ne b a with rfl | hba
      · rw [TimerLoop.waiting, Set.mem_ofPred_eq, htimer, Function.update_self] at hb
        cases hb
      · have heq : L₁.timer b = L.timer b := by rw [htimer, Function.update_of_ne hba]
        rw [TimerLoop.waiting, Set.mem_ofPred_eq, heq] at hb
        exact ⟨hba, hb, heq⟩
    have hafter : After (dueKey (L.timer a)) L₁ := by
      refine ⟨fun b hb => ?_, ?_, ?_⟩
      · obtain ⟨hba, hbw, heq⟩ := hw₁ b hb
        rw [heq]
        refine (hfirst b hbw).lt_of_ne fun hc' => hba ?_
        have hid : (L.timer a).startId.toNat = (L.timer b).startId.toNat := congrArg (fun k => (ofLex k).2) hc'
        exact (hL.distinct a ha b hbw (UInt64.toNat_inj.1 hid)).symm
      · rw [htime]
        exact UInt64.le_iff_toNat_le.1 hdue
      · rw [hcount]
        exact hL.started a ha
    have hnot : a ∉ L₁.due := fun hc' => (hw₁ a hc'.1).1 rfl
    have hadv₁ : Advances 0 True L L₁ := by
      have he : Effect L (.stop a) L₁ := .stopped a rfl htime hcount htimer
      refine ⟨hL₁, htime ▸ UInt64.le_refl _, by rw [hcount]; exact le_rfl, fun k hk => ?_, fun _ ht => ?_⟩
      · exact he.after (by omega) (htime ▸ UInt64.le_refl _) hk
      · exact he.due trivial ht
    obtain ⟨r, L₂, cb, hagain, hL₂, hcb, he₂, htime₂⟩ : ∃ r L₂ cb, L₁.uvTimerAgain a = some (r, L₂) ∧
        Valid L₂ ∧ (L₂.timer a).timerCb = some cb ∧ Effect L₁ (.again a) L₂ ∧ L₂.time = L₁.time := by
      obtain ⟨-, r, hs⟩ | ⟨cb, L₂, -, hrep, hs, hL₂, ht₂, hc₂, htimer₂⟩ :=
        hL₁.uvTimerAgain hA a (by rw [hcount]; omega)
      · obtain ⟨cb, hcb⟩ := Option.ne_none_iff_exists'.1 (hL.callback a ha)
        refine ⟨r, L₁, cb, hs, hL₁, ?_, .same rfl, rfl⟩
        rw [htimer, Function.update_self]
        exact hcb
      · refine ⟨0, L₂, cb, hs, hL₂, ?_, .started a cb _ _ rfl (fun _ => hrep) ht₂ hc₂ htimer₂, ht₂⟩
        rw [htimer₂, Function.update_self]
    have hadv₂ := he₂.advances hL₂ (htime₂ ▸ UInt64.le_refl _) (by rw [hcount]; omega)
    have hcount₂ := (hadv₁.trans hadv₂).counter
    obtain ⟨hlen, hclock⟩ := hb cb a L₂
    obtain ⟨L₃, hcalls, hadv₃, hother⟩ := hL₂.foldlM_apply hA (by omega) hclock
    refine Or.inr ⟨a, L₃, by simp [hlate, hstop, hagain, hcb, hcalls], ?_⟩
    refine ⟨((hadv₁.trans hadv₂).trans hadv₃).mono (by omega) fun hq => ⟨⟨trivial, trivial⟩, hq cb a L₂⟩,
      ha, hdue, hfirst, (hadv₂.trans hadv₃).after _ hafter, fun hq ht hin => hnot ?_, fun hown b hba => ?_⟩
    · exact ((hadv₂.trans hadv₃).due ⟨trivial, hq cb a L₂⟩ (by rwa [htime])).2 hin
    · rw [hother b fun op hop hc' => hba (hown cb a L₂ op hop b hc'),
        he₂.other fun hc' => hba (Option.some.inj hc').symm, htimer, Function.update_of_ne hba]

theorem Valid.uvRunTimers [Finite A] {m n : ℕ} (hA : Nat.card A < 2 ^ 32) (hb : Bounded behave m)
    (hL : Valid L) (hc : L.timerCounter.toNat + n * (m + 1) < 2 ^ 64) :
    ∃ fired L', L.uvRunTimers behave n = some (fired, L') ∧ Valid L' ∧
      (fired.map fun c => dueKey (c.2.timer c.1)).Pairwise (· < ·) ∧
      (∀ c ∈ fired, c.1 ∈ c.2.due) ∧
      ∀ k, After k L → ∀ c ∈ fired, k < dueKey (c.2.timer c.1) := by
  induction n generalizing L with
  | zero => exact ⟨[], L, rfl, hL, .nil, List.forall_mem_nil _, fun _ _ => List.forall_mem_nil _⟩
  | succ n ih =>
    have hmul : (n + 1) * (m + 1) = n * (m + 1) + (m + 1) := Nat.succ_mul n (m + 1)
    rw [TimerLoop.uvRunTimers]
    obtain ⟨hround, -⟩ | ⟨a, L₁, hround, hcall⟩ := hL.runTimersRound hA hb (by omega)
    · rw [hround]
      exact ⟨[], L, rfl, hL, .nil, List.forall_mem_nil _, fun _ _ => List.forall_mem_nil _⟩
    · have hcount := hcall.counter
      obtain ⟨fired, L', hrun, hL', hsorted, hdue, hafter⟩ := ih hcall.valid (by omega)
      refine ⟨(a, L) :: fired, L', by rw [hround]; simp [hrun], hL', ?_, ?_, ?_⟩
      · rw [List.map_cons, List.pairwise_cons]
        refine ⟨fun k hk => ?_, hsorted⟩
        obtain ⟨c, hc', rfl⟩ := List.mem_map.1 hk
        exact hafter _ hcall.afterCall c hc'
      · exact List.forall_mem_cons.2 ⟨⟨hcall.waiting, hcall.isDue⟩, hdue⟩
      · intro k hk
        exact List.forall_mem_cons.2 ⟨hk.waiting a hcall.waiting, hafter k (hcall.after k hk)⟩

/-- **The timers come in order, and none before its time**, in however many rounds and whatever the
callbacks do: each call is of a timer that waits and is due, and after the calls before it. -/
theorem uvRunTimers_sorted [Finite A] {m n : ℕ} (hA : Nat.card A < 2 ^ 32) (hb : Bounded behave m)
    (hL : Valid L) (hc : L.timerCounter.toNat + n * (m + 1) < 2 ^ 64) :
    ∃ fired L', L.uvRunTimers behave n = some (fired, L') ∧ Valid L' ∧
      (fired.map fun c => dueKey (c.2.timer c.1)).Pairwise (· < ·) ∧ ∀ c ∈ fired, c.1 ∈ c.2.due := by
  obtain ⟨fired, L', hrun, hL', hsorted, hdue, -⟩ := hL.uvRunTimers hA hb hc
  exact ⟨fired, L', hrun, hL', hsorted, hdue⟩

theorem uvRunTimers_sorted_two : ∃ (L : TimerLoop Bool Unit) (fired : List (Bool × TimerLoop Bool Unit))
    (L' : TimerLoop Bool Unit), L.waiting = Set.univ ∧
      L.uvRunTimers (fun _ a _ => [.start (!a) (some ()) 0 0]) 9 = some (fired, L') ∧
      (fired.map fun c => dueKey (c.2.timer c.1)).Pairwise (· < ·) := by
  obtain ⟨L, hL, hw, -, hcount⟩ := exists_waiting
  obtain ⟨fired, L', hrun, -, hsorted, -⟩ := uvRunTimers_sorted (n := 9) (by simp)
    (show Bounded (fun _ a _ => [.start (!a) (some ()) 0 0]) 1 from fun _ _ _ => ⟨le_rfl, trivial⟩) hL
    (by rw [hcount]; decide)
  exact ⟨L, fired, L', hw, hrun, hsorted⟩

/-- **The loop breaks** when no callback starts a timer for at once: then no timer is due any more, and
those that were called were due at the beginning, each called once. When each callback leaves the other
timers alone, all that were due at the beginning are called. -/
theorem uvRunTimers_ends [Finite A] {m n : ℕ} (hA : Nat.card A < 2 ^ 32) (hb : Bounded behave m)
    (hq : ∀ cb a L, ∀ op ∈ behave cb a L, Quiet op) (hL : Valid L) (ht : L.time.toNat + 1 < 2 ^ 64)
    (hn : L.due.ncard < n) (hc : L.timerCounter.toNat + n * (m + 1) < 2 ^ 64) :
    ∃ fired L', L.uvRunTimers behave n = some (fired, L') ∧ L'.due = ∅ ∧ L'.time = L.time ∧
      (fired.map Prod.fst).Nodup ∧ (∀ a ∈ fired.map Prod.fst, a ∈ L.due) ∧
      (Own behave → ∀ a ∈ L.due, a ∈ fired.map Prod.fst) := by
  induction n generalizing L with
  | zero => omega
  | succ n ih =>
    have hmul : (n + 1) * (m + 1) = n * (m + 1) + (m + 1) := Nat.succ_mul n (m + 1)
    rw [TimerLoop.uvRunTimers]
    obtain ⟨hround, hdue⟩ | ⟨a, L₁, hround, hcall⟩ := hL.runTimersRound hA hb (by omega)
    · rw [hround]
      refine ⟨[], L, rfl, hdue, rfl, List.nodup_nil, List.forall_mem_nil _, fun _ a ha => ?_⟩
      exact absurd (hdue ▸ ha) (Set.notMem_empty a)
    · have hcount := hcall.counter
      obtain ⟨htime, hsub⟩ := hcall.due hq ht
      have hnot := hcall.removed hq ht
      have hlt : L₁.due.ncard < L.due.ncard :=
        Set.ncard_lt_ncard ⟨hsub, fun hc' => hnot (hc' ⟨hcall.waiting, hcall.isDue⟩)⟩ (Set.toFinite _)
      obtain ⟨fired, L', hrun, hnone, htime', hnodup, hmem, hall⟩ :=
        ih hcall.valid (by rwa [htime]) (by omega) (by omega)
      refine ⟨(a, L) :: fired, L', by rw [hround]; simp [hrun], hnone, htime'.trans htime, ?_, ?_, ?_⟩
      · rw [List.map_cons, List.nodup_cons]
        exact ⟨fun hc' => hnot (hmem a hc'), hnodup⟩
      · rw [List.map_cons]
        exact List.forall_mem_cons.2 ⟨⟨hcall.waiting, hcall.isDue⟩, fun b hb' => hsub (hmem b hb')⟩
      · intro hown b hb'
        rw [List.map_cons, List.mem_cons]
        rcases eq_or_ne b a with hba | hba
        · exact Or.inl hba
        · refine Or.inr (hall hown b ⟨?_, ?_⟩)
          · rw [TimerLoop.waiting, Set.mem_ofPred_eq, hcall.others hown b hba]
            exact hb'.1
          · rw [hcall.others hown b hba, htime]
            exact hb'.2

theorem uvRunTimers_ends_two : ∃ (L : TimerLoop Bool Unit) (fired : List (Bool × TimerLoop Bool Unit))
    (L' : TimerLoop Bool Unit), L.waiting = Set.univ ∧
      L.uvRunTimers (fun _ a _ => [.start a (some ()) 1 0]) 3 = some (fired, L') ∧ L'.due = ∅ ∧
      ∀ a ∈ L.due, a ∈ fired.map Prod.fst := by
  obtain ⟨L, hL, hw, htime, hcount⟩ := exists_waiting
  have hcard : L.due.ncard < 3 := lt_of_le_of_lt (Set.ncard_le_card _) (by simp)
  obtain ⟨fired, L', hrun, hnone, -, -, -, hall⟩ := uvRunTimers_ends (n := 3) (by simp)
    (show Bounded (fun _ a _ => [.start a (some ()) 1 0]) 1 from fun _ _ _ => ⟨le_rfl, trivial⟩)
    (by simp [Quiet]) hL (by rw [htime]; decide) hcard (by rw [hcount]; decide)
  exact ⟨L, fired, L', hw, hrun, hnone, hall (by simp [Own, target])⟩

omit [DecidableEq A] in
/-- **The loop sleeps until the next timer is due**: with `t` the time of `uv__next_timeout`, no timer is due
before `t` is over, and one is when it is over, unless it is the largest `int`. It is -1 only when no timer
waits. -/
theorem uvNextTimeout_spec (hL : Valid L) :
    (L.uvNextTimeout = -1 ↔ L.waiting = ∅) ∧
    (∀ a ∈ L.waiting, 0 ≤ L.uvNextTimeout ∧
      L.time.toNat + L.uvNextTimeout ≤ max L.time.toNat (L.timer a).timeout.toNat) ∧
    (L.waiting ≠ ∅ → L.uvNextTimeout < 2 ^ 31 - 1 →
      ∃ a ∈ L.waiting, (L.timer a).timeout.toNat ≤ L.time.toNat + L.uvNextTimeout) := by
  obtain ⟨hmin, hempty⟩ := hL.heap.heapMin
  rw [uvNextTimeout]
  cases hm : L.heap.heapMin with
  | none =>
    have hw := hempty.1 hm
    simp [hw]
  | some a =>
    obtain ⟨ha, hfirst⟩ := hmin a hm
    have hne : L.waiting ≠ ∅ := fun hc => Set.notMem_empty a (hc ▸ ha)
    have hle : ∀ b ∈ L.waiting, (L.timer a).timeout.toNat ≤ (L.timer b).timeout.toNat := by
      intro b hb
      have := hfirst b hb
      rw [dueKey, dueKey, Prod.Lex.toLex_le_toLex] at this
      simp only at this
      omega
    by_cases hdue : (L.timer a).timeout ≤ L.time
    · have hdue' := UInt64.le_iff_toNat_le.1 hdue
      simp only [hdue, if_true]
      refine ⟨by simp [hne], fun b hb => ⟨le_rfl, by omega⟩, fun _ _ => ⟨a, ha, by omega⟩⟩
    have hlt : L.time.toNat < (L.timer a).timeout.toNat := not_le.1 fun hc =>
      hdue (UInt64.le_iff_toNat_le.2 hc)
    have hsub : ((L.timer a).timeout - L.time).toNat = (L.timer a).timeout.toNat - L.time.toNat :=
      UInt64.toNat_sub_of_le _ _ (UInt64.le_iff_toNat_le.2 hlt.le)
    simp only [hdue, if_false, UInt64.lt_iff_toNat_lt, hsub]
    split_ifs with hmax
    · refine ⟨by simp [hne], fun b hb => ⟨by omega, ?_⟩, fun _ hc => absurd hc (lt_irrefl _)⟩
      have h1 := hle b hb
      have h2 : (2 ^ 31 - 1 : UInt64).toNat = 2147483647 := rfl
      rw [h2] at hmax
      omega
    · have h2 : (2 ^ 31 - 1 : UInt64).toNat = 2147483647 := rfl
      refine ⟨⟨fun hc => hc.elim, fun hc => absurd hc hne⟩,
        fun b hb => ⟨by omega, ?_⟩, fun _ _ => ⟨a, ha, ?_⟩⟩
      · have h1 := hle b hb
        omega
      · omega

theorem uvNextTimeout_spec_two : ∃ L : TimerLoop Bool Unit, L.waiting = Set.univ ∧
    0 ≤ L.uvNextTimeout := by
  obtain ⟨L, hL, hw, -, -⟩ := exists_waiting
  exact ⟨L, hw, ((uvNextTimeout_spec hL).2.1 true (hw ▸ Set.mem_univ true)).1⟩

end SimpleUv.Libuv.TimerLoop
