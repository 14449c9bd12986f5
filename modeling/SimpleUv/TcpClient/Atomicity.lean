import SimpleUv.Foundations.Interleaving
import SimpleUv.TcpClient.Stream

/-!
# Messages of several threads

`Send` writes a message that does not fit into the ring buffer in portions, and gives the mutex back
between them. Another thread can write then, and the bytes of the two messages are interleaved
(`interleaved`). The written stream is a sequence of whole messages as long as no portion is written
while another message is in the middle (`wholeMessages_of_exclusive`).
-/

namespace SimpleUv

open Foundations

/-- The bytes of a call of `Send`. -/
def callBytes {B : Build} (calls : List (Chunk B)) (k : ℕ) : List Byte :=
  ((calls[k]?).map Chunk.bytes).getD []

/-- The written bytes are the first accepted ones, and these are whole messages of different calls, one
behind the other, where the last may be cut off. -/
structure Outbound.WholeMessages {B : Build} (o : Outbound B) : Prop where
  written_eq : o.written = (o.accepted.take o.written.length).map Prod.snd
  whole : ∃ ks : List ℕ, ks.Nodup ∧
    o.accepted.take o.written.length <+: messages (callBytes o.calls) ks

namespace Pipe

variable {B : Build} {p q : Pipe B} {flag : Bool} {socket : Option ℕ} {e : CTCPClient.Event B}

/-- Every thread in `Send` has a call of its own, and `iret` counts its bytes. -/
structure Tally (p : Pipe B) : Prop where
  call_lt : ∀ t s, p.senders t = some s → s.call < p.calls.length
  data : ∀ t s, p.senders t = some s → callBytes p.calls s.call = s.data.bytes
  iret : ∀ t s, p.senders t = some s → got s.call p.accepted = s.iret
  inj : ∀ t t' s s', p.senders t = some s → p.senders t' = some s' → s.call = s'.call → t = t'
  fresh : ∀ k, p.calls.length ≤ k → got k p.accepted = 0

theorem callBytes_append {calls : List (Chunk B)} {k : ℕ} (h : k < calls.length) (c : Chunk B) :
    callBytes (calls ++ [c]) k = callBytes calls k := by
  rw [callBytes, List.getElem?_append_left h, callBytes]

theorem callBytes_length (calls : List (Chunk B)) (c : Chunk B) :
    callBytes (calls ++ [c]) calls.length = c.bytes := by
  rw [callBytes, List.getElem?_append_right le_rfl, Nat.sub_self]
  rfl

theorem tally_start : (start : Pipe B).Tally :=
  ⟨nofun, nofun, nofun, nofun, fun _ _ => rfl⟩

/-- What a thread has besides its place in `Send`. -/
theorem Tally.of_eq (h : p.Tally) (hsenders : ∀ t s, q.senders t = some s →
      ∃ s', p.senders t = some s' ∧ s.call = s'.call ∧ s.data = s'.data ∧ s.iret = s'.iret)
    (hcalls : q.calls = p.calls) (haccepted : q.accepted = p.accepted) : q.Tally := by
  refine ⟨fun t s hs => ?_, fun t s hs => ?_, fun t s hs => ?_, fun t t' s s' hs hs' hcall => ?_, ?_⟩
  · obtain ⟨s', hs', hcall, -, -⟩ := hsenders t s hs
    rw [hcall, hcalls]
    exact h.call_lt t s' hs'
  · obtain ⟨s', hs', hcall, hdata, -⟩ := hsenders t s hs
    rw [hcall, hcalls, hdata]
    exact h.data t s' hs'
  · obtain ⟨s', hs', hcall, -, hiret⟩ := hsenders t s hs
    rw [hcall, haccepted, hiret]
    exact h.iret t s' hs'
  · obtain ⟨u, hu, hcall₁, -⟩ := hsenders t s hs
    obtain ⟨u', hu', hcall₂, -⟩ := hsenders t' s' hs'
    exact h.inj t t' u u' hu hu' (hcall₁ ▸ hcall₂ ▸ hcall)
  · rw [hcalls, haccepted]
    exact h.fresh

theorem Tally.same_senders (h : p.Tally) (hsenders : q.senders = p.senders)
    (hcalls : q.calls = p.calls) (haccepted : q.accepted = p.accepted) : q.Tally :=
  h.of_eq (fun _ s hs => ⟨s, hsenders ▸ hs, rfl, rfl, rfl⟩) hcalls haccepted

theorem Tally.call (h : p.Tally) {t : ℕ} (data : Chunk B) :
    Tally { p with
      asyncPending := true
      senders := Function.update p.senders t (some ⟨p.calls.length, data, 0, .check⟩)
      calls := p.calls ++ [data] } := by
  have hlen : (p.calls ++ [data]).length = p.calls.length + 1 := List.length_append
  refine ⟨?_, ?_, ?_, fun a b x y hx hy hcall => ?_, fun k hk => h.fresh k ?_⟩
  · refine forall_update (fun t' s _ hs => ?_) ?_
    · exact (h.call_lt t' s hs).trans_le (hlen ▸ Nat.le_succ _)
    · rintro s ⟨⟩
      exact lt_of_lt_of_eq (Nat.lt_succ_self _) hlen.symm
  · refine forall_update (fun t' s _ hs => ?_) ?_
    · exact (callBytes_append (h.call_lt t' s hs) data).trans (h.data t' s hs)
    · rintro s ⟨⟩
      exact callBytes_length p.calls data
  · refine forall_update (fun t' s _ hs => h.iret t' s hs) ?_
    rintro s ⟨⟩
    exact h.fresh _ le_rfl
  · rcases update_eq_some.1 hx with ⟨rfl, hx'⟩ | ⟨-, hx'⟩ <;>
    rcases update_eq_some.1 hy with ⟨rfl, hy'⟩ | ⟨-, hy'⟩
    · rfl
    · cases hx'
      exact absurd hcall (h.call_lt b y hy').ne'
    · cases hy'
      exact absurd hcall (h.call_lt a x hx').ne
    · exact h.inj a b x y hx' hy' hcall
  · have hk' : (p.calls ++ [data]).length ≤ k := hk
    omega

theorem Tally.write (h : p.Tally) {t : ℕ} {s : Sender B} (hs : p.senders t = some s)
    (hle : s.iret ≤ s.data.bytes.length) : (p.sendWrite t s).Tally := by
  have hportion : s.iret + s.portion p.queue.length ≤ s.data.bytes.length := portion_le hle
  have hlen : (s.rest.take (s.portion p.queue.length)).length = s.portion p.queue.length := by
    rw [List.length_take, Sender.rest, List.length_drop]
    omega
  have hgot : ∀ k, got k (p.sendWrite t s).accepted =
      got k p.accepted + got k (tagged s.call (s.rest.take (s.portion p.queue.length))) :=
    fun k => got_append k _ _
  refine ⟨?_, ?_, ?_, fun a b x y hx hy hcall => ?_, fun k hk => ?_⟩
  · refine forall_update (fun t' s' _ hs' => h.call_lt t' s' hs') ?_
    rintro s' ⟨⟩
    exact h.call_lt t s hs
  · refine forall_update (fun t' s' _ hs' => h.data t' s' hs') ?_
    rintro s' ⟨⟩
    exact h.data t s hs
  · refine forall_update (fun t' s' hne hs' => ?_) ?_
    · rw [hgot, got_tagged_of_ne (fun hcall => hne (h.inj t' t s' s hs' hs hcall.symm)), h.iret t' s' hs',
        Nat.add_zero]
    · rintro s' ⟨⟩
      show got s.call _ = s.iret + s.portion p.queue.length
      rw [hgot, h.iret t s hs, got_tagged_self, hlen]
  · rcases update_eq_some.1 hx with ⟨rfl, hx'⟩ | ⟨-, hx'⟩ <;>
    rcases update_eq_some.1 hy with ⟨rfl, hy'⟩ | ⟨-, hy'⟩
    · rfl
    · cases hx'
      exact h.inj a b s y hs hy' hcall
    · cases hy'
      exact h.inj a b x s hx' hs hcall
    · exact h.inj a b x y hx' hy' hcall
  · have hk' : p.calls.length ≤ k := hk
    rw [hgot, h.fresh k hk', got_tagged_of_ne]
    exact fun hcall => absurd (h.call_lt t s hs) (by omega)

theorem Tally.effect (h : p.Tally) (hle : ∀ t s, p.senders t = some s → s.iret ≤ s.data.bytes.length)
    (he : Effect flag socket p e q) : q.Tally := by
  cases he with
  | same | userClose | async | empty | take | wrote | failed | completed | recv =>
    exact h.same_senders rfl rfl rfl
  | call hs hdata => exact h.call _
  | @check t s hs hpc =>
    refine h.of_eq (forall_update (fun t' s' _ hs' => ⟨s', hs', rfl, rfl, rfl⟩) ?_) rfl rfl
    rintro s' ⟨⟩
    exact ⟨s, hs, rfl, rfl, rfl⟩
  | write hs hpc => exact h.write hs (hle _ _ hs)
  | signal hs hpc =>
    exact h.of_eq (forall_update (fun t' s' _ hs' => ⟨s', hs', rfl, rfl, rfl⟩) nofun) rfl rfl

/-- The accepted bytes are whole messages, with the last one perhaps cut off. -/
def Whole (p : Pipe B) : Prop := Contiguous (callBytes p.calls) p.accepted

/-- When a thread writes a byte, no other message is in the middle. -/
def Exclusive (p : Pipe B) (e : CTCPClient.Event B) : Prop :=
  ∀ t s, e = .send t → p.senders t = some s → s.pc = .write → 0 < s.portion p.queue.length →
    ∀ k, k ≠ s.call → got k p.accepted = 0 ∨ got k p.accepted = (callBytes p.calls k).length

theorem Whole.effect (h : p.Whole) (htally : p.Tally)
    (hle : ∀ t s, p.senders t = some s → s.iret ≤ s.data.bytes.length) (hexcl : p.Exclusive e)
    (he : Effect flag socket p e q) : q.Whole := by
  cases he with
  | same | check | signal | userClose | async | empty | take | wrote | failed | completed | recv =>
    exact h
  | call hs hdata =>
    refine h.congr fun k hk => callBytes_append ?_ _
    by_contra hlt
    refine hk ?_
    rw [callBytes, List.getElem?_eq_none (by omega)]
    rfl
  | @write t s hs hpc =>
    show Contiguous (callBytes p.calls)
      (p.accepted ++ tagged s.call (s.rest.take (s.portion p.queue.length)))
    rcases Nat.eq_zero_or_pos (s.portion p.queue.length) with hzero | hpos
    · rw [hzero, List.take_zero, tagged, List.map_nil, List.append_nil]
      exact h
    · have hrest : s.rest = (callBytes p.calls s.call).drop (got s.call p.accepted) := by
        rw [htally.data t s hs, htally.iret t s hs, Sender.rest]
      rw [hrest]
      refine h.append hpos ?_ (hexcl t s rfl hs hpc hpos)
      rw [htally.data t s hs, htally.iret t s hs]
      exact portion_le (hle t s hs)

end Pipe

namespace CTCPClient

variable {B : Build} {s t : CTCPClient B} {e : Event B}

/-- The invariant of runs in which no message is written into the middle of another. -/
structure Orderly (s : CTCPClient B) : Prop where
  full : s.Full
  tally : s.out.pipe.Tally
  whole : s.out.pipe.Whole

theorem orderly_start (memory : List.Vector Byte bufferSize) (u : Uninit) :
    (start B memory u).Orderly where
  full := full_start memory u
  tally := by
    show (Outbound.start memory).pipe.Tally
    rw [Outbound.pipe_start]
    exact Pipe.tally_start
  whole := Contiguous.nil

theorem Orderly.step (h : s.Orderly) (hexcl : s.out.pipe.Exclusive e)
    (hres : ∀ res, e = .uvWrite res → res = 0) (hstep : s.step e = some t) : t.Orderly := by
  have he := h.full.sound.effect hstep
  have hle := h.full.sound.inv.iret_le
  exact ⟨h.full.step hres hstep, h.tally.effect hle he, h.whole.effect h.tally hle hexcl he⟩

theorem Orderly.wholeMessages (h : s.Orderly) : s.out.WholeMessages := by
  obtain ⟨ks, hks, hprefix⟩ := Contiguous.exists_prefix h.whole
  refine ⟨?_, ks, hks, (List.take_prefix _ _).trans hprefix⟩
  rw [List.map_take]
  exact List.prefix_iff_eq_take.1 (Outbound.NoGap.written_prefix h.full.noGap)

/-- **The written stream is a sequence of whole messages** when all writes succeed and no message is
written into the middle of another, for any number of threads. -/
theorem wholeMessages_of_exclusive (memory : List.Vector Byte bufferSize) (u : Uninit)
    (es : List (Event B)) (hes : ∀ e ∈ es, ∀ res, e = .uvWrite res → res = 0)
    (h : Along step (fun s e => s.out.pipe.Exclusive e) (start B memory u) es) :
    Always step (fun s => s.out.WholeMessages) (start B memory u) es :=
  (always_of_along (fun _ _ _ hs hok hstep => hs.step hok.1 hok.2 hstep) (orderly_start memory u)
    (h.and_mem hes)).mono fun _ hs => hs.wholeMessages

/-- Two threads send a byte each, a step in turn, and the loop thread writes both. -/
def twoThreads : List (Event zeroBuild) :=
  [.call 0 (oneByte 1), .call 1 (oneByte 2), .send 0, .send 1, .send 1, .send 0, .send 1, .send 0] ++ flushing 0

theorem exec_twoThreads : ∃ p, exec (flow (some 0)) Pipe.start twoThreads = some p ∧
    p.writes = [(0, [2, 1])] := ⟨_, rfl, rfl⟩

theorem exclusive_twoThreads : Along (flow (some 0)) Pipe.Exclusive Pipe.start twoThreads := by
  have hnot (p : Pipe zeroBuild) {e : Event zeroBuild} (he : ∀ t, e ≠ .send t) : p.Exclusive e :=
    fun t _ hsend => absurd hsend (he t)
  have hother (p : Pipe zeroBuild) {t : ℕ} {w : Sender zeroBuild} (hw : p.senders t = some w)
      (hpc : w.pc ≠ .write) : p.Exclusive (.send t) := by
    rintro _ s ⟨⟩ hs hwrite
    rw [hw] at hs
    cases hs
    exact absurd hwrite hpc
  refine .cons rfl (hnot _ nofun) (.cons rfl (hnot _ nofun) (.cons rfl (hother _ rfl nofun)
    (.cons rfl (hother _ rfl nofun) (.cons rfl ?_ (.cons rfl ?_ (.cons rfl (hother _ rfl nofun)
    (.cons rfl (hother _ rfl nofun) (.cons rfl (hnot _ nofun) (.cons rfl (hnot _ nofun)
    (.cons rfl (hnot _ nofun) (.cons rfl (hnot _ nofun) trivial)))))))))))
  · exact fun _ _ _ _ _ _ _ _ => .inl rfl
  · rintro _ w ⟨⟩ ⟨⟩ - - k hk
    rcases k with _ | _ | k
    · exact absurd rfl hk
    · exact .inr rfl
    · exact .inl rfl

/-- Both messages are written, in the order in which the threads got to their locked sections. -/
theorem wholeMessages_twoThreads : ∃ t, exec step zeroStart ([.connected 0 0] ++ twoThreads) = some t ∧
    t.out.written = [2, 1] ∧ t.out.WholeMessages := by
  obtain ⟨p, hflow, hwrites⟩ := exec_twoThreads
  obtain ⟨o, hrun, -, rfl⟩ := exec_connected hflow
  have hstart : connectedStart.out.pipe = Pipe.start := Outbound.pipe_start _
  have hexclusive : Along step (fun s e => s.out.pipe.Exclusive e) zeroStart ([.connected 0 0] ++ twoThreads) :=
    .cons rfl (fun _ _ => nofun) (along_flow (s := connectedStart) (Outbound.inv_start _) rfl rfl rfl
      (hstart ▸ hflow) (hstart ▸ exclusive_twoThreads))
  have halways := wholeMessages_of_exclusive _ _ ([.connected 0 0] ++ twoThreads)
    (by simp [twoThreads, flushing]) hexclusive
  have hwritten : o.written = [2, 1] := congrArg (List.flatMap Prod.snd) hwrites
  exact ⟨_, hrun, hwritten, halways.last hrun⟩

/-! ## Interleaved messages -/

/-- A message that fills the ring buffer, and has one more byte. -/
def spillingMessage : Chunk zeroBuild :=
  ⟨.replicate 10241 0, by rw [List.length_replicate]; decide⟩

/-- A thread fills the ring buffer with a part of its message. When it is empty again, another thread
sends a byte before the first one writes the rest. -/
def interleavedRun : List (Event zeroBuild) :=
  [.call 0 spillingMessage] ++ ([.send 0, .send 0] ++
    (flushing 0 ++ (sending 1 (oneByte 2) ++ ([.send 0, .send 0] ++ flushing 0))))

/-- The first thread, with `n` bytes written. -/
def spillingSender (n : ℕ) : Sender zeroBuild := ⟨0, spillingMessage, n, .check⟩

theorem length_rest_spilling (n : ℕ) : (spillingSender n).rest.length = 10241 - n := by
  rw [Sender.rest, List.length_drop]
  exact congrArg (· - n) List.length_replicate

theorem spilling_first_ne : (spillingSender 0).rest.take bufferSize ≠ [] :=
  List.ne_nil_of_length_pos (by rw [List.length_take, length_rest_spilling]; decide)

theorem exec_interleaved : ∃ p, exec (flow (some 0)) Pipe.start interleavedRun = some p ∧
    p.accepted = tagged 0 ((spillingSender 0).rest.take bufferSize) ++
      tagged 1 [2] ++ tagged 0 (spillingSender (0 + bufferSize)).rest ∧
    p.writes = [(0, (spillingSender 0).rest.take bufferSize),
      (0, [2] ++ (spillingSender (0 + bufferSize)).rest)] := by
  have hB := bufferSize_eq
  have hlen : spillingMessage.bytes.length = 10241 := List.length_replicate
  have hrest := length_rest_spilling
  have hcall : ∀ n, (spillingSender n).call = 0 := fun _ => rfl
  have hfirst : ((spillingSender 0).rest.take bufferSize).length = bufferSize := by
    rw [List.length_take, hrest]
    omega
  have hne := spilling_first_ne
  have hshort : spillingMessage.bytes.length < 2 ^ 31 := by omega
  have hlt : (spillingSender 0).iret + bufferSize < (spillingSender 0).data.bytes.length := by
    show 0 + bufferSize < spillingMessage.bytes.length
    omega
  have hle : (spillingSender (0 + bufferSize)).iret ≤
      (spillingSender (0 + bufferSize)).data.bytes.length := by
    show 0 + bufferSize ≤ spillingMessage.bytes.length
    omega
  have hqueue : ([] ++ [2] ++ (spillingSender (0 + bufferSize)).rest).length ≤ bufferSize := by
    rw [List.length_append, hrest]
    show 1 + _ ≤ _
    omega
  refine ⟨_, (exec_append_of_exec (exec_call rfl (List.ne_nil_of_length_pos (by omega)))).trans
      ((exec_append_of_exec (exec_filling (s := spillingSender 0) rfl rfl rfl hlt hshort)).trans
      ((exec_append_of_exec (exec_flushing rfl rfl hne hfirst.le)).trans
      ((exec_append_of_exec (exec_sending rfl (by decide) (by decide))).trans
      ((exec_append_of_exec (exec_finishing (s := spillingSender (0 + bufferSize)) rfl rfl hle hshort
        ?_)).trans
        (exec_flushing rfl rfl nofun hqueue))))), ?_, ?_⟩
  · rw [hrest]
    show [(2 : Byte)].length + (10241 - (0 + bufferSize)) ≤ bufferSize
    decide
  · simp only [Pipe.start, tagged, List.nil_append, List.length_singleton, oneByte, List.map_cons,
      List.map_nil, hcall]
  · simp only [Pipe.start, List.nil_append, oneByte, List.cons_append]

/-- The bytes of the second message are in the middle of the first one. -/
theorem interleaved : ¬ Always step (fun s => s.out.WholeMessages) zeroStart
    ([.connected 0 0] ++ interleavedRun) := by
  intro h
  obtain ⟨p, hflow, haccepted, hwrites⟩ := exec_interleaved
  obtain ⟨o, hrun, -, rfl⟩ := exec_connected hflow
  obtain ⟨-, ks, hks, hprefix⟩ := h.last hrun
  replace haccepted : o.accepted = _ := haccepted
  replace hwrites : o.writes = _ := hwrites
  have hwritten : o.accepted.length ≤ o.written.length := by
    rw [Outbound.written, haccepted, hwrites]
    simp only [tagged, List.length_append, List.length_map, List.flatMap_cons, List.flatMap_nil,
      List.append_nil, List.length_singleton]
    omega
  rw [List.take_of_length_le hwritten, haccepted] at hprefix
  have hfirst : 0 ∈ (tagged 0 ((spillingSender 0).rest.take bufferSize)).map Prod.fst :=
    mem_tagged spilling_first_ne
  have hlast : 0 ∈ (tagged 0 (spillingSender (0 + bufferSize)).rest).map Prod.fst :=
    mem_tagged (List.ne_nil_of_length_pos (by rw [length_rest_spilling]; decide))
  refine no_return hks Nat.zero_ne_one (List.Sublist.trans ?_ (List.IsPrefix.sublist hprefix |>.map Prod.fst))
  rw [List.map_append, List.map_append]
  exact (((List.singleton_sublist.2 hfirst).append (List.Sublist.refl [1])).append
    (List.singleton_sublist.2 hlast))

end CTCPClient

end SimpleUv
