import SimpleUv.TcpClient.Control
import SimpleUv.TcpClient.Stream

/-!
# The messages of one thread

One thread calls `Send`, one message after the other. The accepted bytes are then the messages, one
behind the other, with the last one cut off at what the thread has written so far (`Sequential`). When
the user closes the client the thread may leave a message unfinished; nothing is accepted after it.
-/

namespace SimpleUv

open Foundations

namespace Pipe

variable {B : Build} {p q : Pipe B} {flag : Bool} {socket : Option ℕ} {e : CTCPClient.Event B} {r : ℕ}
  {messages : List (List Byte)}

/-- The accepted bytes are the messages of the thread. -/
inductive Sequential (flag : Bool) (r : ℕ) (p : Pipe B) : List (List Byte) → Prop
  | idle {messages : List (List Byte)} (hs : p.senders r = none)
      (h : p.acceptedBytes = messages.flatten) : Sequential flag r p messages
  | sending {s : Sender B} {messages : List (List Byte)} (hs : p.senders r = some s)
      (hpc : s.pc = .signal → s.iret = s.data.bytes.length)
      (h : p.acceptedBytes = messages.flatten ++ s.data.bytes.take s.iret) :
      Sequential flag r p (messages ++ [s.data.bytes])
  | closed {messages : List (List Byte)} (hflag : flag = true)
      (hpc : ∀ s, p.senders r = some s → s.pc ≠ .write) (h : p.acceptedBytes <+: messages.flatten) :
      Sequential flag r p messages

/-- Only a call adds a message. -/
theorem calls_eq (he : Effect flag socket p e q) (hcall : ∀ t data, e ≠ .call t data) :
    q.calls = p.calls := by
  cases he with
  | call hs hdata => exact absurd rfl (hcall _ _)
  | _ => rfl

namespace Sequential

theorem of_eq (h : p.Sequential flag r messages) (hsenders : q.senders = p.senders)
    (haccepted : q.accepted = p.accepted) : q.Sequential flag r messages := by
  have hbytes : q.acceptedBytes = p.acceptedBytes := congrArg (List.map Prod.snd) haccepted
  cases h with
  | idle hs h => exact .idle (hsenders ▸ hs) (hbytes ▸ h)
  | sending hs hpc h => exact .sending (hsenders ▸ hs) hpc (hbytes ▸ h)
  | closed hflag hpc h => exact .closed hflag (hsenders ▸ hpc) (hbytes ▸ h)

/-- The user asks for the close. -/
theorem close (h : p.Sequential flag r messages) : p.Sequential true r messages := by
  cases h with
  | idle hs h => exact .idle hs h
  | sending hs hpc h => exact .sending hs hpc h
  | closed hflag hpc h => exact .closed rfl hpc h

theorem prefix_flatten (h : p.Sequential flag r messages) : p.acceptedBytes <+: messages.flatten := by
  cases h with
  | idle hs h => rw [h]
  | sending hs hpc h =>
    rw [h, List.flatten_append, List.flatten_singleton, List.prefix_append_right_inj]
    exact List.take_prefix _ _
  | closed hflag hpc h => exact h

/-- All calls have returned. -/
theorem flatten_of_idle (h : p.Sequential flag r messages) (hflag : flag = false)
    (hs : p.senders r = none) : p.acceptedBytes = messages.flatten := by
  cases h with
  | idle hs h => exact h
  | sending hs' hpc h =>
    rw [hs] at hs'
    cases hs'
  | closed hflag' hpc h =>
    rw [hflag] at hflag'
    cases hflag'

/-- The next call. -/
theorem call (h : p.Sequential flag r messages) {data : Chunk B} (hdata : data.bytes ≠ [])
    (hcall : p.call r data = some q) : q.Sequential flag r (messages ++ [data.bytes]) := by
  unfold Pipe.call at hcall
  split at hcall
  · cases hcall
  · next hs =>
    rw [if_neg hdata] at hcall
    cases hcall
    cases h with
    | idle hs' h =>
      refine .sending (s := ⟨p.calls.length, data, 0, .check⟩) (Function.update_self ..) nofun ?_
      rw [List.take_zero, List.append_nil]
      exact h
    | sending hs' hpc h =>
      rw [hs] at hs'
      cases hs'
    | closed hflag hpc h =>
      refine .closed hflag (fun s hs' => ?_) (h.trans ?_)
      · change Function.update p.senders r (some _) r = some s at hs'
        rw [Function.update_self] at hs'
        cases hs'
        nofun
      · rw [List.flatten_append]
        exact List.prefix_append _ _

theorem write (h : p.Sequential flag r messages) {s : Sender B} (hs : p.senders r = some s)
    (hpc : s.pc = .write) (hle : s.iret ≤ s.data.bytes.length) :
    (p.sendWrite r s).Sequential flag r messages := by
  cases h with
  | idle hs' h =>
    rw [hs] at hs'
    cases hs'
  | sending hs' hsignal h =>
    rw [hs] at hs'
    cases hs'
    refine .sending (s := s.advance (s.portion p.queue.length)) (Function.update_self ..)
      (fun hsignal => ?_) ?_
    · have hle' : s.iret + s.portion p.queue.length ≤ s.data.bytes.length := portion_le hle
      unfold Sender.advance at hsignal ⊢
      simp only at hsignal ⊢
      split_ifs at hsignal with hlt
      omega
    · show List.map Prod.snd (p.accepted ++ _) =
        _ ++ s.data.bytes.take (s.iret + s.portion p.queue.length)
      rw [List.map_append, Outbound.map_snd_tag, Sender.rest, List.take_add, ← List.append_assoc, ← h,
        acceptedBytes]
  | closed hflag hpc' h => exact absurd hpc (hpc' s hs)

theorem check (h : p.Sequential flag r messages) {s : Sender B} (hs : p.senders r = some s) :
    Sequential flag r { p with
      senders := Function.update p.senders r
        (some { s with pc := if flag then .signal else .write }) } messages := by
  have hclosed : flag = true → ∀ s', Function.update p.senders r
      (some { s with pc := if flag then SendPc.signal else .write }) r = some s' → s'.pc ≠ .write := by
    intro hflag s' hs'
    rw [Function.update_self, hflag] at hs'
    cases hs'
    nofun
  cases h with
  | idle hs' h =>
    rw [hs] at hs'
    cases hs'
  | sending hs' hsignal h =>
    rw [hs] at hs'
    cases hs'
    cases flag with
    | true =>
      refine .closed rfl (hclosed rfl) ?_
      rw [List.flatten_append, List.flatten_singleton]
      show p.acceptedBytes <+: _
      rw [h, List.prefix_append_right_inj]
      exact List.take_prefix _ _
    | false => exact .sending (s := { s with pc := .write }) (Function.update_self ..) nofun h
  | closed hflag hpc' h => exact .closed hflag (hclosed hflag) h

theorem signal (h : p.Sequential flag r messages) {s : Sender B} (hs : p.senders r = some s)
    (hpc : s.pc = .signal) :
    Sequential flag r
      { p with asyncPending := true, senders := Function.update p.senders r none } messages := by
  cases h with
  | idle hs' h =>
    rw [hs] at hs'
    cases hs'
  | sending hs' hsignal h =>
    rw [hs] at hs'
    cases hs'
    refine .idle (Function.update_self ..) ?_
    rw [List.flatten_append, List.flatten_singleton]
    exact h.trans (by rw [hsignal hpc, List.take_length])
  | closed hflag hpc' h =>
    refine .closed hflag (fun s' hs' => ?_) h
    change Function.update p.senders r none r = some s' at hs'
    rw [Function.update_self] at hs'
    cases hs'

/-- The steps that are no calls. -/
theorem effect (h : p.Sequential flag r messages) (hcall : ∀ t data, e ≠ .call t data)
    (hr : ∀ t, e = .send t → t = r)
    (hle : ∀ t s, p.senders t = some s → s.iret ≤ s.data.bytes.length)
    (he : Effect flag socket p e q) : q.Sequential flag r messages := by
  cases he with
  | same | userClose | async | empty | take | wrote | failed | completed | recv =>
    exact h.of_eq rfl rfl
  | call hs hdata => exact absurd rfl (hcall _ _)
  | check hs hpc =>
    obtain rfl := hr _ rfl
    exact h.check hs
  | write hs hpc =>
    obtain rfl := hr _ rfl
    exact h.write hs hpc (hle _ _ hs)
  | signal hs hpc =>
    obtain rfl := hr _ rfl
    exact h.signal hs hpc

/-- **Every step of the thread and of the loop thread**, on the messages of the calls so far. -/
theorem step (h : p.Sequential flag r (p.calls.map Chunk.bytes))
    (hcall : ∀ t data, e = .call t data → t = r) (hsend : ∀ t, e = .send t → t = r)
    (hle : ∀ t s, p.senders t = some s → s.iret ≤ s.data.bytes.length)
    (hstep : p.step flag socket e = some q) : q.Sequential flag r (q.calls.map Chunk.bytes) := by
  by_cases he : ∃ t data, e = .call t data
  · obtain ⟨t, data, rfl⟩ := he
    obtain rfl := hcall t data rfl
    replace hstep : p.call t data = some q := hstep
    by_cases hdata : data.bytes = []
    · unfold Pipe.call at hstep
      split at hstep
      · cases hstep
      · rw [if_pos hdata] at hstep
        cases hstep
        exact h
    · have hcalls : q.calls = p.calls ++ [data] := by
        unfold Pipe.call at hstep
        split at hstep
        · cases hstep
        · rw [if_neg hdata] at hstep
          cases hstep
          rfl
      rw [hcalls, List.map_append]
      exact h.call hdata hstep
  · have he' : ∀ t data, e ≠ .call t data := fun t data heq => he ⟨t, data, heq⟩
    have heffect := effect_of_step hstep
    rw [calls_eq heffect he']
    exact h.effect he' hsend hle heffect

end Sequential

/-- Writes are only added. -/
theorem written_prefix (he : Effect flag socket p e q) : p.written <+: q.written := by
  cases he with
  | wrote hloop hsocket =>
    show p.written <+: (p.writes ++ _).flatMap Prod.snd
    rw [List.flatMap_append]
    exact List.prefix_append _ _
  | _ => exact List.prefix_rfl

end Pipe

end SimpleUv
