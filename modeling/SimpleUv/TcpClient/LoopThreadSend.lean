import SimpleUv.Foundations.Behaviour
import SimpleUv.TcpClient.Wakeup

/-!
# Sending on the loop thread

A handler that answers a message calls `Send` on the loop thread. Until the call returns, that thread
runs no callback: nothing is taken out of the ring buffer, and only the steps of other threads come
between those of `Send`. So the call returns exactly when there is nothing to send, when the user asks
for the close, or when the whole message fits into the ring buffer at its first write
(`loopThreadSend_iff`). The message with which it does not return is one byte longer than two ring
buffers.
-/

namespace SimpleUv

open Foundations

/-- How many steps are left in `Send` when the thread does not go round the loop again. -/
def SendPc.rank : SendPc → ℕ
  | .signal => 1
  | .check => 2
  | .write => 3

namespace CTCPClient

variable {B : Build}

/-- What threads in user code do, and the loop thread in `Send`. -/
def Event.OfUser : Event B → Prop
  | .call _ _ | .send _ | .userClose => True
  | _ => False

instance (e : Event B) : Decidable e.OfUser := by
  cases e <;> unfold Event.OfUser <;> infer_instance

/-- The loop thread, which has the number `r`, calls `Send`. Other threads may call the client
meanwhile. It is scheduled again and again. -/
structure LoopThreadSend (r : ℕ) (data : Chunk B) (ss : ℕ → CTCPClient B)
    (es : ℕ → Option (Event B)) : Prop where
  behaviour : Behaviour step ss es
  call : es 0 = some (.call r data)
  user : ∀ n e, es n = some e → e.OfUser
  fair : ∀ n, (ss n).out.senders r ≠ none → ∃ m, n ≤ m ∧ es m = some (.send r)

/-- The call has returned. -/
def Returned (r : ℕ) (s : CTCPClient B) : Prop := s.out.senders r = none

/-- The event is the first write of the thread, and the message fits into the ring buffer. -/
def FirstFits (r : ℕ) (len : ℕ) (s : CTCPClient B) (e : Option (Event B)) : Prop :=
  e = some (.send r) ∧ len + s.out.queue.length ≤ bufferSize ∧
    ∃ p, s.out.senders r = some p ∧ p.pc = .write ∧ p.iret = 0

end CTCPClient

/-! ## The steps -/

namespace Pipe

variable {B : Build} {p q : Pipe B} {e : CTCPClient.Event B} {flag : Bool} {socket : Option ℕ} {r : ℕ}

/-- **A step of a thread in `Send`.** -/
theorem sendStep_cases (h : p.sendStep flag r = some q) :
    ∃ s, p.senders r = some s ∧
      (s.pc = .check ∧ q.queue = p.queue ∧
          q.senders r = some { s with pc := if flag then .signal else .write } ∨
        s.pc = .write ∧ q.queue = p.queue ++ s.rest.take (s.portion p.queue.length) ∧
          q.senders r = some (s.advance (s.portion p.queue.length)) ∨
        s.pc = .signal ∧ q.senders r = none) := by
  unfold sendStep at h
  cases hs : p.senders r with
  | none =>
    rw [hs] at h
    cases h
  | some s =>
    refine ⟨s, rfl, ?_⟩
    cases hpc : s.pc with
    | check =>
      simp only [hs, hpc, Option.some.injEq] at h
      subst h
      exact .inl ⟨rfl, rfl, Function.update_self ..⟩
    | write =>
      simp only [hs, hpc, Option.some.injEq] at h
      subst h
      exact .inr (.inl ⟨rfl, rfl, Function.update_self ..⟩)
    | signal =>
      simp only [hs, hpc, Option.some.injEq] at h
      subst h
      exact .inr (.inr ⟨rfl, Function.update_self ..⟩)

/-- What other threads do leaves the thread where it is. -/
theorem Effect.senders_eq (h : Effect flag socket p e q) (he : e.OfUser) (hne : e ≠ .send r)
    {s : Sender B} (hs : p.senders r = some s) : q.senders r = some s := by
  have hother : ∀ {u : ℕ} {s' : Option (Sender B)}, u ≠ r →
      Function.update p.senders u s' r = some s := by
    intro u s' hu
    rw [Function.update_of_ne hu.symm]
    exact hs
  cases h with
  | same | userClose => exact hs
  | call hnone hdata =>
    refine hother ?_
    rintro rfl
    rw [hs] at hnone
    cases hnone
  | check hs' hpc | write hs' hpc | signal hs' hpc =>
    refine hother ?_
    rintro rfl
    exact hne rfl
  | async | empty | take | wrote | failed | completed | recv => exact absurd he not_false

/-- No thread takes anything out of the queue. -/
theorem Effect.queue_grows (h : Effect flag socket p e q) (he : e.OfUser) : p.queue <+: q.queue := by
  cases h with
  | same | call | check | signal | userClose => exact List.prefix_refl _
  | write hs hpc => exact List.prefix_append _ _
  | async | empty | take | wrote | failed | completed | recv => exact absurd he not_false

end Pipe

namespace CTCPClient

variable {B : Build} {ss : ℕ → CTCPClient B} {es : ℕ → Option (Event B)} {s t : CTCPClient B}
  {e : Event B} {r : ℕ} {data : Chunk B}

theorem send_cases (h : s.out.Inv) (hstep : s.step (.send r) = some t) :
    ∃ p, s.out.senders r = some p ∧
      (p.pc = .check ∧ t.out.queue = s.out.queue ∧ t.out.senders r =
          some { p with pc := if s.isUserAskForClosed then .signal else .write } ∨
        p.pc = .write ∧ t.out.queue = s.out.queue ++ p.rest.take (p.portion s.out.queue.length) ∧
          t.out.senders r = some (p.advance (p.portion s.out.queue.length)) ∨
        p.pc = .signal ∧ t.out.senders r = none) := Pipe.sendStep_cases (step_pipe hstep h)

theorem senders_eq (h : s.out.Inv) (he : e.OfUser) (hne : e ≠ .send r) {p : Sender B}
    (hp : s.out.senders r = some p) (hstep : s.step e = some t) : t.out.senders r = some p :=
  (Pipe.effect_of_step (step_pipe hstep h)).senders_eq he hne hp

theorem queue_grows (h : s.out.Inv) (he : e.OfUser) (hstep : s.step e = some t) :
    s.out.queue <+: t.out.queue := (Pipe.effect_of_step (step_pipe hstep h)).queue_grows he

theorem flag_of_flag (hflag : s.isUserAskForClosed = true) (hstep : s.step e = some t) :
    t.isUserAskForClosed = true := by
  rcases flag_mono hstep with ht | ht
  · rw [ht, hflag]
  · exact ht

theorem queue_le (h : s.out.Inv) : s.out.queue.length ≤ bufferSize := by
  have := h.ring.length_le
  rw [h.size] at this
  omega

/-! ## A call that does not return -/

/-- The thread is in `Send`. When it has written something, then more than the ring buffer can take is
in the ring buffer or still to be written. -/
structure Stuck (r : ℕ) (data : Chunk B) (s : CTCPClient B) : Prop where
  inv : s.out.Inv
  sender : ∃ p, s.out.senders r = some p ∧ p.data = data ∧ p.pc ≠ .signal ∧
    (p.iret = 0 ∨ bufferSize + p.iret < data.bytes.length + s.out.queue.length)

/-- **A stuck thread stays stuck** as long as the user does not ask for the close and its message does
not fit. -/
theorem Stuck.step (h : Stuck r data s) (he : e.OfUser) (hflag : s.isUserAskForClosed = false)
    (hfits : ¬ FirstFits r data.bytes.length s (some e)) (hstep : s.step e = some t) :
    Stuck r data t := by
  have hinv := step_inv hstep h.inv
  refine ⟨hinv, ?_⟩
  obtain ⟨p, hp, hdata, hpc, hiret⟩ := h.sender
  by_cases hr : e = .send r
  · subst hr
    obtain ⟨p', hp', hcases⟩ := send_cases h.inv hstep
    rw [hp] at hp'
    cases hp'
    rcases hcases with ⟨-, hq, hsender⟩ | ⟨hwrite, hq, hsender⟩ | ⟨hsignal, -⟩
    · refine ⟨_, hsender, hdata, ?_, by rw [hq]; exact hiret⟩
      rw [hflag]
      intro hsignal
      cases hsignal
    · -- what is written leaves the rest of the message, and goes to the ring buffer
      have hle : p.iret + p.portion s.out.queue.length ≤ p.data.bytes.length :=
        Pipe.portion_le (h.inv.iret_le r p hp)
      have hmore : bufferSize + p.iret < data.bytes.length + s.out.queue.length := by
        rcases hiret with hzero | hmore
        · by_contra hmore
          exact hfits ⟨rfl, by omega, p, hp, hwrite, hzero⟩
        · exact hmore
      have hlen : t.out.queue.length = s.out.queue.length + p.portion s.out.queue.length := by
        rw [hq, List.length_append, List.length_take, Sender.rest, List.length_drop]
        omega
      have hroom := queue_le hinv
      rw [← hdata] at hmore ⊢
      have hlt : p.iret + p.portion s.out.queue.length < p.data.bytes.length := by omega
      refine ⟨_, hsender, rfl, ?_, .inr ?_⟩
      · rw [Sender.advance, if_pos hlt]
        intro hsignal
        cases hsignal
      · show bufferSize + (p.iret + p.portion s.out.queue.length) < _
        omega
    · exact absurd hsignal hpc
  · have hq := (queue_grows h.inv he hstep).length_le
    exact ⟨p, senders_eq h.inv he hr hp hstep, hdata, hpc, hiret.imp_right fun hmore => by omega⟩

/-! ## A call that returns -/

/-- The steps the thread has before it. -/
def rank (r : ℕ) (s : CTCPClient B) : ℕ := (s.out.senders r).elim 0 fun p => p.pc.rank

/-- The thread will not go round the loop again. -/
def Leaving (r : ℕ) (s : CTCPClient B) : Prop :=
  s.isUserAskForClosed = true ∨ ∃ p, s.out.senders r = some p ∧ p.pc = .signal

theorem rank_eq {p : Sender B} (hp : s.out.senders r = some p) : rank r s = p.pc.rank := by
  rw [rank, hp, Option.elim_some]

theorem Leaving.flag (h : Leaving r s) {p : Sender B} (hp : s.out.senders r = some p)
    (hpc : p.pc ≠ .signal) : s.isUserAskForClosed = true := by
  rcases h with h | ⟨p', hp', hsignal⟩
  · exact h
  · rw [hp] at hp'
    cases hp'
    exact absurd hsignal hpc

/-- **A thread that is leaving** has fewer steps before it after each of its steps. -/
theorem Leaving.step (h : Leaving r s) (hinv : s.out.Inv) (hs : ¬ Returned r s) (he : e.OfUser)
    (hstep : s.step e = some t) :
    Returned r t ∨ Leaving r t ∧ rank r t ≤ rank r s ∧ (e = .send r → rank r t < rank r s) := by
  obtain ⟨p, hp⟩ := Option.ne_none_iff_exists'.1 hs
  by_cases hr : e = .send r
  · subst hr
    obtain ⟨p', hp', hcases⟩ := send_cases hinv hstep
    rw [hp] at hp'
    cases hp'
    rcases hcases with ⟨hcheck, -, hsender⟩ | ⟨hwrite, -, hsender⟩ | ⟨-, hnone⟩
    · right
      have hs := h.flag hp (by rw [hcheck]; nofun)
      rw [hs, if_pos rfl] at hsender
      have hlt : rank r t < rank r s := by
        rw [rank_eq hsender, rank_eq hp, hcheck]
        exact Nat.lt_succ_self 1
      exact ⟨.inr ⟨_, hsender, rfl⟩, hlt.le, fun _ => hlt⟩
    · right
      have hs := h.flag hp (by rw [hwrite]; nofun)
      have hlt : rank r t < rank r s := by
        rw [rank_eq hsender, rank_eq hp, hwrite, Sender.advance]
        dsimp only
        split_ifs <;> decide
      exact ⟨.inl (flag_of_flag hs hstep), hlt.le, fun _ => hlt⟩
    · exact .inl hnone
  · right
    have hsender := senders_eq hinv he hr hp hstep
    refine ⟨?_, by rw [rank_eq hsender, rank_eq hp], fun h' => absurd h' hr⟩
    rcases h with h | ⟨p', hp', hsignal⟩
    · exact .inl (flag_of_flag h hstep)
    · rw [hp] at hp'
      cases hp'
      exact .inr ⟨p, hsender, hsignal⟩

/-- The message fits at the first write: the thread leaves. -/
theorem leaving_of_firstFits (hinv : s.out.Inv) {p : Sender B} (hp : s.out.senders r = some p)
    (hfits : FirstFits r p.data.bytes.length s (some (.send r))) (hstep : s.step (.send r) = some t) :
    Leaving r t := by
  obtain ⟨-, hfit, p', hp', hwrite, hzero⟩ := hfits
  rw [hp] at hp'
  cases hp'
  obtain ⟨p', hp', hcases⟩ := send_cases hinv hstep
  rw [hp] at hp'
  cases hp'
  rcases hcases with ⟨hcheck, -⟩ | ⟨-, -, hsender⟩ | ⟨hsignal, -⟩
  · rw [hwrite] at hcheck
    cases hcheck
  · have hB := bufferSize_eq
    have hportion : p.portion s.out.queue.length = p.data.bytes.length := by
      rw [Pipe.portion_eq (by omega) (by omega) (queue_le hinv)]
      omega
    refine .inr ⟨_, hsender, ?_⟩
    rw [Sender.advance, if_neg (by omega)]
  · rw [hwrite] at hsignal
    cases hsignal

/-! ## Runs -/

namespace LoopThreadSend

variable (hrun : LoopThreadSend r data ss es)

include hrun

theorem inv (h : (ss 0).out.Inv) (n : ℕ) : (ss n).out.Inv :=
  hrun.behaviour.keep (I := fun s => s.out.Inv) (fun _ _ _ _ hinv hstep => step_inv hstep hinv) h
    (Nat.zero_le n)

theorem called : (ss 0).out.senders r = none ∧
    if data.bytes = [] then (ss 1).out.senders r = none
    else ∃ p, (ss 1).out.senders r = some p ∧ p.data = data ∧ p.pc = .check ∧ p.iret = 0 := by
  have hcall : (ss 0).out.call r data = some (ss 1).out :=
    step_out (hrun.behaviour.step_of_event hrun.call)
  unfold Outbound.call at hcall
  cases hnone : (ss 0).out.senders r with
  | some p =>
    rw [hnone] at hcall
    cases hcall
  | none =>
    refine ⟨rfl, ?_⟩
    simp only [hnone] at hcall
    split_ifs at hcall ⊢ with hdata
    · rw [← Option.some.inj hcall, hnone]
    · rw [← Option.some.inj hcall]
      exact ⟨_, Function.update_self .., rfl, rfl, rfl⟩

/-- **Without room the thread stays in `Send`.** -/
theorem stuck (h : (ss 0).out.Inv) (hdata : data.bytes ≠ [])
    (hflag : ∀ n, (ss n).isUserAskForClosed = false)
    (hfits : ∀ n, ¬ FirstFits r data.bytes.length (ss n) (es n)) {n : ℕ} (hn : 1 ≤ n) :
    Stuck r data (ss n) := by
  have hone : Stuck r data (ss 1) := by
    obtain ⟨-, hcalled⟩ := hrun.called
    rw [if_neg hdata] at hcalled
    obtain ⟨p, hp, hdata, hpc, hiret⟩ := hcalled
    exact ⟨hrun.inv h 1, p, hp, hdata, by rw [hpc]; nofun, .inl hiret⟩
  refine hrun.behaviour.keep (fun n e _ he hs hstep => ?_) hone hn
  have hn := hfits n
  rw [he] at hn
  exact hs.step (hrun.user n e he) (hflag n) hn hstep

/-- **A thread that is leaving returns**, since it is scheduled again and again. -/
theorem returned_of_leaving (h : (ss 0).out.Inv) {a : ℕ} (ha : 1 ≤ a) (hleaving : Leaving r (ss a)) :
    ∃ n, 1 ≤ n ∧ Returned r (ss n) := by
  by_contra hnever
  push Not at hnever
  have hall : ∀ n, a ≤ n → Leaving r (ss n) := fun n hn =>
    hrun.behaviour.keep (fun m e hm he hs hstep =>
      ((hs.step (hrun.inv h m) (hnever m (by omega)) (hrun.user m e he) hstep).resolve_left
        (hnever (m + 1) (by omega))).1) hleaving hn
  obtain ⟨n, hn, hreturned⟩ := eventually_of_rank (P := fun n => Returned r (ss n)) (a := a)
    (fun n => rank r (ss n))
    (fun n hn hnext => by
      rcases hrun.behaviour n with ⟨-, hsame⟩ | ⟨e, he, hstep⟩
      · rw [hsame]
      · exact (((hall n hn).step (hrun.inv h n) (hnever n (by omega)) (hrun.user n e he)
          hstep).resolve_left hnext).2.1)
    (fun n hn hnot => by
      obtain ⟨m, hm, he⟩ := hrun.fair n hnot
      refine ⟨m, hm, ?_⟩
      exact ((hall m (by omega)).step (hrun.inv h m) (hnever m (by omega)) (hrun.user m _ he)
        (hrun.behaviour.step_of_event he)).imp_right fun hdrop => hdrop.2.2 rfl)
  exact hnever n (by omega) hreturned

/-- Until the call has returned, the thread sends its message. -/
theorem sending (h : (ss 0).out.Inv) (hnever : ∀ n, 1 ≤ n → ¬ Returned r (ss n)) {n : ℕ}
    (hn : 1 ≤ n) : ∃ p, (ss n).out.senders r = some p ∧ p.data = data := by
  refine hrun.behaviour.keep (I := fun s => ∃ p, s.out.senders r = some p ∧ p.data = data) ?_ ?_ hn
  · rintro m e hm he ⟨p, hp, hdata⟩ hstep
    have huser := hrun.user m e he
    by_cases hr : e = .send r
    · subst hr
      obtain ⟨p', hp', hcases⟩ := send_cases (hrun.inv h m) hstep
      rw [hp] at hp'
      cases hp'
      rcases hcases with ⟨-, -, hsender⟩ | ⟨-, -, hsender⟩ | ⟨-, hnone⟩
      · exact ⟨_, hsender, hdata⟩
      · exact ⟨_, hsender, hdata⟩
      · exact absurd hnone (hnever (m + 1) (by omega))
    · exact ⟨p, senders_eq (hrun.inv h m) huser hr hp hstep, hdata⟩
  · obtain ⟨-, hcalled⟩ := hrun.called
    split_ifs at hcalled with hdata
    · exact absurd hcalled (hnever 1 le_rfl)
    · obtain ⟨p, hp, hdata, -⟩ := hcalled
      exact ⟨p, hp, hdata⟩

/-- The wish to close is never taken back. -/
theorem flag_succ {n : ℕ} (hflag : (ss n).isUserAskForClosed = true) :
    (ss (n + 1)).isUserAskForClosed = true := by
  rcases hrun.behaviour n with ⟨-, hsame⟩ | ⟨e, -, hstep⟩
  · rw [hsame, hflag]
  · exact flag_of_flag hflag hstep

end LoopThreadSend

/-- **When `Send` returns on the loop thread.** -/
theorem loopThreadSend_iff (memory : List.Vector Byte bufferSize) (u : Uninit) (before : List (Event B))
    (hbefore : exec step (start B memory u) before = some (ss 0))
    (hrun : LoopThreadSend r data ss es) :
    (∃ n, 1 ≤ n ∧ Returned r (ss n)) ↔
      data.bytes = [] ∨ (∃ n, (ss n).isUserAskForClosed = true) ∨
        ∃ n, FirstFits r data.bytes.length (ss n) (es n) := by
  have hinv : (ss 0).out.Inv := (always_of_step (I := fun s => s.out.Inv)
    (fun _ _ _ hs hstep => step_inv hstep hs) (Outbound.inv_start memory) before).last hbefore
  constructor
  · rintro ⟨n, hn, hreturned⟩
    by_contra hnot
    push Not at hnot
    obtain ⟨hdata, hflag, hfits⟩ := hnot
    have hopen : ∀ n, (ss n).isUserAskForClosed = false := fun n => Bool.eq_false_iff.2 (hflag n)
    obtain ⟨p, hp, -⟩ := (hrun.stuck hinv hdata hopen hfits hn).sender
    rw [Returned, hp] at hreturned
    cases hreturned
  · rintro (hdata | ⟨n, hflag⟩ | ⟨n, hfits⟩)
    · obtain ⟨-, hcalled⟩ := hrun.called
      rw [if_pos hdata] at hcalled
      exact ⟨1, le_rfl, hcalled⟩
    · exact hrun.returned_of_leaving hinv (Nat.le_add_left 1 n) (.inl (hrun.flag_succ hflag))
    · by_contra hnever
      push Not at hnever
      have hn : 1 ≤ n := by
        rcases Nat.eq_zero_or_pos n with rfl | hn
        · rw [hrun.call] at hfits
          cases hfits.1
        · exact hn
      obtain ⟨p, hp, rfl⟩ := hrun.sending hinv hnever hn
      have he := hfits.1
      rw [he] at hfits
      obtain ⟨m, hm, hreturned⟩ := hrun.returned_of_leaving hinv (Nat.le_add_left 1 n)
        (leaving_of_firstFits (hrun.inv hinv n) hp hfits (hrun.behaviour.step_of_event he))
      exact hnever m hm hreturned

/-! ## The loop thread alone -/

/-- The states of the client when only the loop thread calls it. -/
def aloneStates (r : ℕ) (data : Chunk B) (s : CTCPClient B) : ℕ → CTCPClient B :=
  prepend s (repeated step (.send r) ((s.step (.call r data)).getD s))

/-- Its turns: the call, and the steps in `Send`. -/
def aloneEvents (r : ℕ) (data : Chunk B) (s : CTCPClient B) : ℕ → Option (Event B) :=
  prepend (some (.call r data)) (repeatedEvents step (.send r) ((s.step (.call r data)).getD s))

theorem send_total (h : s.out.Inv) (hcrashed : s.crashed = false) (hs : s.out.senders r ≠ none) :
    ∃ t, s.step (.send r) = some t ∧ t.crashed = false := by
  obtain ⟨p, hp⟩ := Option.ne_none_iff_exists'.1 hs
  have hpipe := h.sendStep_pipe s.isUserAskForClosed r
  cases hstep : s.out.sendStep s.isUserAskForClosed r with
  | none =>
    rw [hstep, Option.map_none, Pipe.sendStep, Outbound.pipe_senders, hp] at hpipe
    cases hpc : p.pc <;> simp only [hpc] at hpipe <;> cases hpipe
  | some o =>
    refine ⟨{ s with out := o }, ?_, hcrashed⟩
    rw [step_eq hcrashed, callback, hstep, Option.map_some]

theorem loopThreadSend_alone (h : s.out.Inv) (hcrashed : s.crashed = false)
    (hs : s.out.senders r = none) (data : Chunk B) :
    LoopThreadSend r data (aloneStates r data s) (aloneEvents r data s) := by
  obtain ⟨t, hcall, hinv, hrunning⟩ : ∃ t, s.step (.call r data) = some t ∧ t.out.Inv ∧
      t.crashed = false := by
    obtain ⟨o, ho⟩ : ∃ o, s.out.call r data = some o := by
      simp only [Outbound.call, hs]
      split_ifs <;> exact ⟨_, rfl⟩
    have hcall : s.step (.call r data) = some { s with out := o } := by
      rw [step_eq hcrashed, callback, ho, Option.map_some]
    exact ⟨_, hcall, step_inv hcall h, hcrashed⟩
  unfold aloneStates aloneEvents
  rw [hcall, Option.getD_some]
  have hrest := behaviour_repeated step (.send r) t
  have hgood : ∀ n, (repeated step (.send r) t n).out.Inv ∧
      (repeated step (.send r) t n).crashed = false := by
    intro n
    refine hrest.keep (a := 0) (I := fun s => s.out.Inv ∧ s.crashed = false) ?_ ⟨hinv, hrunning⟩
      (Nat.zero_le n)
    rintro m e - he ⟨hinv, hrunning⟩ hstep
    obtain rfl := eq_of_repeatedEvents he
    refine ⟨step_inv hstep hinv, ?_⟩
    rw [step_eq hrunning] at hstep
    obtain ⟨o, -, ho⟩ := Option.map_eq_some_iff.1 hstep
    rw [← ho]
    exact hrunning
  refine ⟨hrest.prepend hcall, rfl, fun n e he => ?_, fun n hn => ?_⟩
  · cases n with
    | zero =>
      cases he
      trivial
    | succ n =>
      obtain rfl := eq_of_repeatedEvents he
      trivial
  · cases n with
    | zero => exact absurd hs hn
    | succ n =>
      obtain ⟨hinv, hrunning⟩ := hgood n
      obtain ⟨t, hstep, -⟩ := send_total hinv hrunning hn
      exact ⟨n + 1, le_rfl, repeatedEvents_of_step hstep⟩

theorem alone_zeroStart (data : Chunk zeroBuild) :
    LoopThreadSend 0 data (aloneStates 0 data zeroStart) (aloneEvents 0 data zeroStart) :=
  loopThreadSend_alone (Outbound.inv_start _) rfl rfl data

/-- The message of one byte is sent. -/
theorem loopThreadSend_oneByte :
    (∃ n, 1 ≤ n ∧ Returned 0 (aloneStates 0 (oneByte 1) zeroStart n)) ↔
      (oneByte 1).bytes = [] ∨
        (∃ n, (aloneStates 0 (oneByte 1) zeroStart n).isUserAskForClosed = true) ∨
          ∃ n, FirstFits 0 (oneByte 1).bytes.length (aloneStates 0 (oneByte 1) zeroStart n)
            (aloneEvents 0 (oneByte 1) zeroStart n) :=
  loopThreadSend_iff (.replicate bufferSize 0) zeroUninit [] rfl (alone_zeroStart (oneByte 1))

/-- A message that does not fit into the empty ring buffer: the call does not return. -/
theorem loopThreadSend_stuck :
    LoopThreadSend 0 longMessage (aloneStates 0 longMessage zeroStart)
        (aloneEvents 0 longMessage zeroStart) ∧
      aloneStates 0 longMessage zeroStart 0 = zeroStart ∧
      ¬ ∃ n, 1 ≤ n ∧ Returned 0 (aloneStates 0 longMessage zeroStart n) := by
  have hrun := alone_zeroStart longMessage
  have hlen := length_longMessage
  have hB := bufferSize_eq
  refine ⟨hrun, rfl, ?_⟩
  rintro ⟨n, hn, hreturned⟩
  have hflag : ∀ n, (aloneStates 0 longMessage zeroStart n).isUserAskForClosed = false := by
    intro n
    refine hrun.behaviour.keep (I := fun s => s.isUserAskForClosed = false) ?_ rfl (Nat.zero_le n)
    intro m e _ he hflag hstep
    refine flag_of_step hflag ?_ hstep
    rintro rfl
    cases m with
    | zero => cases he
    | succ m => cases eq_of_repeatedEvents he
  have hfits : ∀ n, ¬ FirstFits 0 longMessage.bytes.length (aloneStates 0 longMessage zeroStart n)
      (aloneEvents 0 longMessage zeroStart n) := by
    rintro n ⟨-, hfit, -⟩
    omega
  obtain ⟨p, hp, -⟩ := (hrun.stuck (Outbound.inv_start _)
    (List.ne_nil_of_length_pos (by omega)) hflag hfits hn).sender
  rw [Returned, hp] at hreturned
  cases hreturned

end CTCPClient

end SimpleUv
