import Mathlib.Data.Int.Notation
import Mathlib.Logic.Function.Basic
import SimpleUv.Foundations.Transition

/-!
# The handle that threads send to

`CUVThreadMng` has one place for a `CTCPHandle` and one for the async handle that wakes its loop thread.
`RegistHandle` assigns both when a handle initialises itself, and `UnRegistHandle` clears the second one
when the run of any handle ends. `SendUvMessage2Handle` appends a message to the queue of the first and
signals the second. There is no lock, so every assignment and every use of a place is a step of its own.

The state keeps the history of its events, the last one first. Sending is safe for the orders of events
that `Orderly` describes, and for no others (`safe_iff`).
-/

namespace SimpleUv

open Foundations

variable {H W : Type}

/-- Where a handle stands in `CTCPHandle::init`: outside, before the two assignments of `RegistHandle`, and
before `uv_tcp_init`. -/
inductive InitLine
  | idle
  | registAsync
  | registHandle
  | tcpInit
  deriving DecidableEq, Repr

/-- A `CTCPHandle`. It is `registered` from the call of `RegistHandle` to the end of its run. -/
structure HandleState where
  isClosed : Bool
  line : InitLine
  registered : Bool
  running : Bool

/-- The steps of the handles and of the threads that send: `init` up to `RegistHandle`, its two assignments,
the rest of `init`, the start and the end of `run`, what a server does behind it, and the two halves of
`SendUvMessage2Handle`. -/
inductive HandleEvent (H W : Type)
  | init (h : H) (asyncInit : ℤ)
  | registAsync (h : H)
  | registHandle (h : H)
  | tcpInit (h : H) (res : ℤ)
  | run (h : H)
  | exit (h : H)
  | closed (h : H)
  | push (w : W)
  | signal (w : W)

/-- The places of `CUVThreadMng`, the handles, and for each thread the handle that it has sent a message to
and not signalled yet. -/
structure HandleMng (H W : Type) where
  handleAsync : Option H
  handle : Option H
  handles : H → HandleState
  senders : W → Option H
  past : List (HandleEvent H W)

namespace HandleMng

/-- No handle is initialised. -/
def start : HandleMng H W where
  handleAsync := none
  handle := none
  handles _ := ⟨true, .idle, false, false⟩
  senders _ := none
  past := []

variable [DecidableEq H] [DecidableEq W] (s : HandleMng H W)

/-- The handle changes. -/
def setHandle (h : H) (state : HandleState) : HandleMng H W :=
  { s with handles := Function.update s.handles h state }

/-- The state after an event. A null pointer that is used ends the process. -/
def next : HandleEvent H W → Option (HandleMng H W)
  | .init h asyncInit =>
    if (s.handles h).line ≠ .idle then none
    else if !(s.handles h).isClosed || asyncInit ≠ 0 then some s
    else some (s.setHandle h { s.handles h with line := .registAsync })
  | .registAsync h =>
    if (s.handles h).line = .registAsync then
      some { s.setHandle h { s.handles h with line := .registHandle, registered := true } with
        handleAsync := some h }
    else none
  | .registHandle h =>
    if (s.handles h).line = .registHandle then
      some { s.setHandle h { s.handles h with line := .tcpInit } with handle := some h }
    else none
  | .tcpInit h res =>
    if (s.handles h).line = .tcpInit then
      some (s.setHandle h { s.handles h with
        line := .idle, isClosed := if res ≠ 0 then (s.handles h).isClosed else false })
    else none
  | .run h =>
    if (s.handles h).isClosed || (s.handles h).running then none
    else some (s.setHandle h { s.handles h with running := true })
  | .exit h =>
    if (s.handles h).running then
      some { s.setHandle h { s.handles h with running := false, registered := false } with
        handleAsync := none }
    else none
  | .closed h =>
    if (s.handles h).running then none
    else some (s.setHandle h { s.handles h with isClosed := true })
  | .push w =>
    if s.senders w = none then
      s.handle.map fun h => { s with senders := Function.update s.senders w (some h) }
    else none
  | .signal w =>
    if s.senders w = none then none
    else s.handleAsync.map fun _ => { s with senders := Function.update s.senders w none }

/-- One step, which is recorded. -/
def step (e : HandleEvent H W) : Option (HandleMng H W) :=
  (s.next e).map fun t => { t with past := e :: s.past }

variable {s}

omit [DecidableEq H] [DecidableEq W] in
/-- No thread uses a null pointer or signals a handle that is not registered or not the one that got the
message, and no handle unregisters another one that runs. -/
def Safe (s : HandleMng H W) : HandleEvent H W → Prop
  | .push w => s.senders w = none → s.handle ≠ none
  | .signal w => ∀ h, s.senders w = some h →
    ∃ a, s.handleAsync = some a ∧ (s.handles a).registered = true ∧ a = h
  | .exit h => (s.handles h).running = true →
    ∀ a, s.handleAsync = some a → a ≠ h → (s.handles a).running = false
  | _ => True

/-! ## Histories -/

/-- The handle that was registered last, unless a run has ended since. -/
def current (past : List (HandleEvent H W)) : Option H :=
  (past.findSome? fun
    | .registAsync h => some (some h)
    | .exit _ => some none
    | _ => none).join

/-- The last handle whose registration is complete. -/
def addressee (past : List (HandleEvent H W)) : Option H :=
  past.findSome? fun
    | .registHandle h => some h
    | _ => none

/-- The run of a handle has started and has not ended. -/
def runs (past : List (HandleEvent H W)) (h : H) : Bool :=
  (past.findSome? fun
    | .run x => if x = h then some true else none
    | .exit x => if x = h then some false else none
    | _ => none).getD false

/-- The handle that a thread has appended a message for and has not signalled: the addressee at that
time. -/
def sendingTo (w : W) : List (HandleEvent H W) → Option H
  | .push v :: past => if v = w then addressee past else sendingTo w past
  | .signal v :: past => if v = w then none else sendingTo w past
  | _ :: past => sendingTo w past
  | [] => none

/-- A thread begins to send after a registration is complete. When it signals, the handle it has sent to
is the one that was registered last, and no run has ended since. The run of a handle ends when the handle
registered last is the same one or does not run, or a run has ended since. -/
def Orderly (s : HandleMng H W) : HandleEvent H W → Prop
  | .push w => sendingTo w s.past = none → ∃ h, .registHandle h ∈ s.past
  | .signal w => ∀ h, sendingTo w s.past = some h → current s.past = some h
  | .exit h => runs s.past h = true → ∀ a, current s.past = some a → a ≠ h → runs s.past a = false
  | _ => True

/-- The fields of the state are those that the history leaves. -/
structure Recorded (s : HandleMng H W) : Prop where
  current : s.handleAsync = current s.past
  addressee : s.handle = addressee s.past
  senders : ∀ w, s.senders w = sendingTo w s.past
  running : ∀ h, (s.handles h).running = runs s.past h
  registered : ∀ h, s.handleAsync = some h → (s.handles h).registered = true

theorem recorded_start : (start : HandleMng H W).Recorded :=
  ⟨rfl, rfl, fun _ => rfl, fun _ => rfl, nofun⟩

section Places

omit [DecidableEq W]

theorem setHandle_self {h : H} {state : HandleState} : (s.setHandle h state).handles h = state :=
  Function.update_self ..

/-- A field of a handle after another one, or the same one, has changed. -/
theorem field_setHandle {a : H} {state : HandleState} (field : HandleState → Bool) (x : H) :
    field ((s.setHandle a state).handles x) = if a = x then field state else field (s.handles x) := by
  by_cases hx : a = x
  · rw [if_pos hx, ← hx, setHandle_self]
  · rw [if_neg hx]
    exact congrArg field (Function.update_of_ne (Ne.symm hx) ..)

theorem field_setHandle_of_eq {a : H} {state : HandleState} (field : HandleState → Bool)
    (hstate : field state = field (s.handles a)) (x : H) :
    field ((s.setHandle a state).handles x) = field (s.handles x) := by
  rw [field_setHandle field]
  split_ifs with hx
  · rw [hstate, hx]
  · rfl

theorem runs_run {past : List (HandleEvent H W)} {a x : H} :
    runs (.run a :: past) x = if a = x then true else runs past x := by
  unfold runs
  rw [List.findSome?_cons]
  by_cases hx : a = x <;> simp [hx]

theorem runs_exit {past : List (HandleEvent H W)} {a x : H} :
    runs (.exit a :: past) x = if a = x then false else runs past x := by
  unfold runs
  rw [List.findSome?_cons]
  by_cases hx : a = x <;> simp [hx]

end Places

omit [DecidableEq H] in
theorem update_senders {w v : W} {o : Option H} :
    Function.update s.senders w o v = if w = v then o else s.senders v := by
  by_cases hv : w = v
  · rw [if_pos hv, hv, Function.update_self]
  · rw [if_neg hv, Function.update_of_ne (Ne.symm hv)]

/-- A handle that neither registers nor starts or ends its run takes a step that the history says nothing
about. -/
theorem Recorded.move (h : s.Recorded) {a : H} {state : HandleState} {e : HandleEvent H W}
    (hrunning : state.running = (s.handles a).running)
    (hregistered : state.registered = (s.handles a).registered)
    (hcurrent : HandleMng.current (e :: s.past) = HandleMng.current s.past)
    (haddressee : HandleMng.addressee (e :: s.past) = HandleMng.addressee s.past)
    (hsenders : ∀ w, sendingTo w (e :: s.past) = sendingTo w s.past)
    (hruns : ∀ x, runs (e :: s.past) x = runs s.past x) :
    Recorded { s.setHandle a state with past := e :: s.past } where
  current := h.current.trans hcurrent.symm
  addressee := h.addressee.trans haddressee.symm
  senders w := (h.senders w).trans (hsenders w).symm
  running x := (field_setHandle_of_eq (·.running) hrunning x).trans ((h.running x).trans (hruns x).symm)
  registered x hx := (field_setHandle_of_eq (·.registered) hregistered x).trans (h.registered x hx)

/-- **Every step is recorded.** -/
theorem Recorded.step {t : HandleMng H W} {e : HandleEvent H W} (h : s.Recorded)
    (hstep : s.step e = some t) : t.Recorded := by
  obtain ⟨u, hu, rfl⟩ := Option.map_eq_some_iff.1 hstep
  cases e with
  | init a asyncInit =>
    simp only [next] at hu
    split_ifs at hu <;> cases hu
    · exact ⟨h.current, h.addressee, h.senders, h.running, h.registered⟩
    · exact h.move rfl rfl rfl rfl (fun _ => rfl) fun _ => rfl
  | registAsync a =>
    obtain ⟨-, hu⟩ := Option.ite_none_right_eq_some.1 hu
    cases hu
    refine ⟨rfl, h.addressee, h.senders, fun x => ?_, fun x hx => ?_⟩
    · exact (field_setHandle_of_eq (·.running) (by rfl) x).trans (h.running x)
    · cases hx
      exact congrArg HandleState.registered setHandle_self
  | registHandle a =>
    obtain ⟨-, hu⟩ := Option.ite_none_right_eq_some.1 hu
    cases hu
    refine ⟨h.current, rfl, h.senders, fun x => ?_, fun x hx => ?_⟩
    · exact (field_setHandle_of_eq (·.running) (by rfl) x).trans (h.running x)
    · exact (field_setHandle_of_eq (·.registered) (by rfl) x).trans (h.registered x hx)
  | tcpInit a res =>
    obtain ⟨-, hu⟩ := Option.ite_none_right_eq_some.1 hu
    cases hu
    exact h.move rfl rfl rfl rfl (fun _ => rfl) fun _ => rfl
  | run a =>
    obtain ⟨-, hu⟩ := Option.ite_none_left_eq_some.1 hu
    cases hu
    refine ⟨h.current, h.addressee, h.senders, fun x => ?_, fun x hx => ?_⟩
    · rw [runs_run, ← h.running]
      exact field_setHandle (·.running) x
    · exact (field_setHandle_of_eq (·.registered) (by rfl) x).trans (h.registered x hx)
  | exit a =>
    obtain ⟨-, hu⟩ := Option.ite_none_right_eq_some.1 hu
    cases hu
    refine ⟨rfl, h.addressee, h.senders, fun x => ?_, nofun⟩
    rw [runs_exit, ← h.running]
    exact field_setHandle (·.running) x
  | closed a =>
    obtain ⟨-, hu⟩ := Option.ite_none_left_eq_some.1 hu
    cases hu
    exact h.move rfl rfl rfl rfl (fun _ => rfl) fun _ => rfl
  | push w =>
    obtain ⟨-, hu⟩ := Option.ite_none_right_eq_some.1 hu
    obtain ⟨a, ha, rfl⟩ := Option.map_eq_some_iff.1 hu
    refine ⟨h.current, h.addressee, fun v => ?_, h.running, h.registered⟩
    rw [sendingTo, ← h.addressee, ha, ← h.senders]
    exact update_senders
  | signal w =>
    obtain ⟨-, hu⟩ := Option.ite_none_left_eq_some.1 hu
    obtain ⟨a, -, rfl⟩ := Option.map_eq_some_iff.1 hu
    refine ⟨h.current, h.addressee, fun v => ?_, h.running, h.registered⟩
    rw [sendingTo, ← h.senders]
    exact update_senders

omit [DecidableEq H] [DecidableEq W] in
theorem addressee_ne_none {past : List (HandleEvent H W)} :
    addressee past ≠ none ↔ ∃ h, .registHandle h ∈ past := by
  induction past with
  | nil => simp [addressee]
  | cons e past ih =>
    cases e with
    | registHandle a => simp [addressee]
    | _ => simpa [addressee] using ih

/-- Under the record, the history decides. -/
theorem Recorded.safe_iff_orderly (h : s.Recorded) (e : HandleEvent H W) : s.Safe e ↔ s.Orderly e := by
  cases e with
  | push w =>
    simp only [Safe, Orderly, h.senders, h.addressee, addressee_ne_none]
  | signal w =>
    simp only [Safe, Orderly, h.senders]
    refine forall₂_congr fun a _ => ?_
    rw [← h.current]
    constructor
    · rintro ⟨b, hb, -, rfl⟩
      exact hb
    · exact fun ha => ⟨a, ha, h.registered a ha, rfl⟩
  | exit a => simp only [Safe, Orderly, h.running, h.current]
  | init a asyncInit | registAsync a | registHandle a | tcpInit a res | run a | closed a => rfl

/-- **Sending is safe** in a run exactly when its events are in order. -/
theorem safe_iff (es : List (HandleEvent H W)) :
    Throughout step Safe start es ↔ Throughout step Orderly start es :=
  ⟨fun h => h.imp (fun _ _ _ hs _ hstep => Recorded.step hs hstep)
      (fun _ e hs hok => (Recorded.safe_iff_orderly hs e).1 hok) recorded_start,
    fun h => h.imp (fun _ _ _ hs _ hstep => Recorded.step hs hstep)
      (fun _ e hs hok => (Recorded.safe_iff_orderly hs e).2 hok) recorded_start⟩

/-- Two handles run, and the run of the first one ends. -/
def twoHandles : List (HandleEvent Bool Unit) :=
  [false, true].flatMap (fun h => [.init h 0, .registAsync h, .registHandle h, .tcpInit h 0, .run h]) ++
    [.exit false]

/-- The place of the second one is cleared. -/
theorem twoHandles_not_safe : ¬ Throughout step Safe start twoHandles := by
  intro h
  have hexit := h.of_exec rfl
  exact absurd (hexit rfl true rfl (by decide)) (by decide)

end HandleMng

end SimpleUv
