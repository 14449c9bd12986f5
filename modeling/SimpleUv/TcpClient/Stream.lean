import SimpleUv.TcpClient.Pipe

/-!
# The written stream

`send_inl` takes a block out of the ring buffer before it knows whether `uv_write` accepts it, and a
block that is refused is dropped. So the written bytes are the first accepted ones, with everything
else still pending, exactly as long as no `uv_write` fails (`noGap_iff`). One that fails while the
client waits for its reconnection leaves a gap (`lostWrite_gap`).
-/

namespace SimpleUv

open Foundations

/-- The written bytes are the first accepted ones, and the others are still to be written, in the
order in which they were accepted. -/
structure Outbound.NoGap {B : Build} (o : Outbound B) : Prop where
  written_prefix : o.written <+: o.acceptedBytes
  pending : o.written ++ (o.held ++ o.queue) = o.acceptedBytes

namespace Pipe

variable {B : Build} {p q : Pipe B} {flag : Bool} {socket : Option ℕ} {e : CTCPClient.Event B}

/-- The queue holds the accepted bytes that have not left it, and no empty block is written. -/
structure Flows (p : Pipe B) : Prop where
  accepted : p.acceptedBytes = p.taken ++ p.queue
  held : ∀ block recv, p.loop = .writing block recv → block ≠ []

theorem flows_start : (start : Pipe B).Flows := ⟨rfl, fun _ _ => nofun⟩

theorem Flows.effect (h : p.Flows) (he : Effect flag socket p e q) : q.Flows := by
  cases he with
  | same | call | check | signal | userClose => exact ⟨h.accepted, h.held⟩
  | empty | wrote | failed | recv => exact ⟨h.accepted, fun _ _ => nofun⟩
  | async | completed =>
    refine ⟨h.accepted, fun block recv => ?_⟩
    simp only
    split_ifs <;> nofun
  | write hs hpc =>
    refine ⟨?_, h.held⟩
    show List.map Prod.snd (p.accepted ++ _) = p.taken ++ (p.queue ++ _)
    rw [List.map_append, Outbound.map_snd_tag, ← List.append_assoc, ← h.accepted, acceptedBytes]
  | take hloop hq =>
    refine ⟨?_, fun block recv hl => ?_⟩
    · show p.acceptedBytes = p.taken ++ p.queue.take bufferSize ++ p.queue.drop bufferSize
      rw [h.accepted, List.append_assoc, List.take_append_drop]
    · cases hl
      intro hnil
      rcases List.take_eq_nil_iff.1 hnil with hzero | hnil
      · cases hzero
      · exact hq hnil

/-- Every block that was taken is written or about to be. -/
def Lossless (p : Pipe B) : Prop := p.taken = p.written ++ p.held

theorem held_eq_nil (h : ∀ block recv, p.loop ≠ .writing block recv) : p.held = [] := by
  unfold held
  split
  · next hl => exact absurd hl (h _ _)
  · rfl

/-- Steps that take nothing and write nothing. -/
theorem Lossless.of_eq (h : p.Lossless) (htaken : q.taken = p.taken) (hwrites : q.writes = p.writes)
    (hp : p.held = []) (hq : q.held = []) : q.Lossless := by
  unfold Lossless written at h ⊢
  rw [htaken, hwrites, hq, h, hp]

theorem Lossless.effect (h : p.Lossless) (he : Effect flag socket p e q)
    (hres : ∀ res, e = .uvWrite res → res = 0) : q.Lossless := by
  cases he with
  | same | call | check | write | signal | userClose => exact h
  | empty hloop | recv hloop =>
    refine h.of_eq rfl rfl (held_eq_nil ?_) rfl
    rw [hloop]
    exact fun _ _ => nofun
  | async hloop | completed hloop =>
    refine h.of_eq rfl rfl (held_eq_nil ?_) (held_eq_nil fun block recv => ?_)
    · rw [hloop]
      exact fun _ _ => nofun
    · simp only
      split_ifs <;> nofun
  | take hloop hq =>
    have hheld : p.held = [] := held_eq_nil (by rw [hloop]; exact fun _ _ => nofun)
    show p.taken ++ p.queue.take bufferSize = p.written ++ p.queue.take bufferSize
    rw [h, hheld, List.append_nil]
  | @wrote block recv n hloop hsocket =>
    have hheld : p.held = block := by rw [held, hloop]
    show p.taken = (p.writes ++ [(n, block)]).flatMap Prod.snd ++ []
    rw [h, hheld, List.flatMap_append, List.append_nil, List.flatMap_singleton]
    rfl
  | failed hloop hne => exact absurd (hres _ rfl) hne

/-- A write that fails loses its block. -/
theorem Lossless.failed (h : p.Lossless) (hp : p.Flows) {res : ℤ} (hres : res ≠ 0)
    (hstep : p.uvWrite socket res = some q) :
    q.written ++ (q.held ++ q.queue) ≠ q.acceptedBytes := by
  unfold uvWrite at hstep
  split at hstep
  · next block recv hloop =>
    rw [if_neg hres] at hstep
    cases hstep
    have hheld : p.held = block := by rw [held, hloop]
    have hblock := List.length_pos_of_ne_nil (hp.held block recv hloop)
    intro hpending
    replace hpending : p.written ++ ([] ++ p.queue) = p.written ++ block ++ p.queue := by
      rw [← hheld, ← h, ← hp.accepted]
      exact hpending
    have hlen := congrArg List.length hpending
    simp only [List.length_append, List.length_nil] at hlen
    omega
  · cases hstep

end Pipe

namespace CTCPClient

variable {B : Build} {s t : CTCPClient B} {e : Event B}

/-- What holds of the outgoing side in every run. -/
structure Sound (s : CTCPClient B) : Prop where
  inv : s.out.Inv
  flows : s.out.pipe.Flows

theorem sound_start (memory : List.Vector Byte bufferSize) (u : Uninit) :
    (start B memory u).Sound where
  inv := Outbound.inv_start memory
  flows := by
    show (Outbound.start memory).pipe.Flows
    rw [Outbound.pipe_start]
    exact Pipe.flows_start

theorem Sound.effect (h : s.Sound) (hstep : s.step e = some t) :
    Pipe.Effect s.isUserAskForClosed s.tcphandle.socket s.out.pipe e t.out.pipe :=
  Pipe.effect_of_step (step_pipe hstep h.inv)

theorem Sound.step (h : s.Sound) (hstep : s.step e = some t) : t.Sound :=
  ⟨step_inv hstep h.inv, h.flows.effect (h.effect hstep)⟩

/-- Nothing is lost as long as every write succeeds. -/
structure Full (s : CTCPClient B) : Prop where
  sound : s.Sound
  lossless : s.out.pipe.Lossless

theorem full_start (memory : List.Vector Byte bufferSize) (u : Uninit) :
    (start B memory u).Full where
  sound := sound_start memory u
  lossless := by
    show (Outbound.start memory).pipe.Lossless
    rw [Outbound.pipe_start]
    rfl

theorem Full.step (h : s.Full) (hres : ∀ res, e = .uvWrite res → res = 0)
    (hstep : s.step e = some t) : t.Full :=
  ⟨h.sound.step hstep, h.lossless.effect (h.sound.effect hstep) hres⟩

theorem Full.noGap (h : s.Full) : s.out.NoGap := by
  have hpending : s.out.written ++ (s.out.held ++ s.out.queue) = s.out.acceptedBytes := by
    have htaken : s.out.taken = s.out.written ++ s.out.pipe.held := h.lossless
    rw [Outbound.pipe_held] at htaken
    rw [h.sound.inv.accepted, htaken, List.append_assoc]
  exact ⟨⟨_, hpending⟩, hpending⟩

/-- **The written stream has no gap** exactly as long as every `uv_write` returns 0, for any number of
threads. -/
theorem noGap_iff (memory : List.Vector Byte bufferSize) (u : Uninit) (es : List (Event B)) :
    Always step (fun s => s.out.NoGap) (start B memory u) es ↔
      Along step (fun _ e => ∀ res, e = .uvWrite res → res = 0) (start B memory u) es := by
  refine always_iff_along (A := fun _ => True) (fun s e t h _ hres hstep => h.step hres hstep) ?_
    (fun s h => h.noGap) (full_start memory u) fun _ _ => trivial
  intro s e t h _ hfail hstep hgap
  obtain ⟨res, hnot⟩ := not_forall.1 hfail
  obtain ⟨rfl, hres⟩ := Classical.not_imp.1 hnot
  refine h.lossless.failed h.sound.flows hres (step_pipe hstep h.sound.inv) ?_
  rw [Outbound.pipe_held]
  exact hgap.pending

/-! ## A block that is lost -/

/-- A message of one byte. -/
def oneByte (b : Byte) : Chunk zeroBuild := ⟨[b], by show 2 * 1 < 2 ^ 64; decide⟩

/-- The client at the beginning of the runs below. -/
def zeroStart : CTCPClient zeroBuild := start zeroBuild (.replicate bufferSize 0) zeroUninit

/-- The first connection is there. -/
def connectedStart : CTCPClient zeroBuild := { zeroStart with tcphandle := .connected 0 true }

/-- A run of the pipe is a run of the client on its first connection. -/
theorem exec_connected {es : List (Event zeroBuild)} {p : Pipe zeroBuild}
    (h : exec (flow (some 0)) Pipe.start es = some p) :
    ∃ o, exec step zeroStart ([.connected 0 0] ++ es) = some { connectedStart with out := o } ∧
      o.Inv ∧ o.pipe = p := by
  obtain ⟨o, hrun, hinv, hpipe⟩ := exec_flow (s := connectedStart) (Outbound.inv_start _)
    rfl rfl rfl ((congrArg (exec (flow (some 0)) · _) (Outbound.pipe_start _)).trans h)
  have hconnected : exec step zeroStart [.connected 0 0] = some connectedStart := rfl
  exact ⟨o, (exec_append_of_exec hconnected).trans hrun, hinv, hpipe⟩

/-- The first connection has ended. -/
def disconnected : CTCPClient zeroBuild :=
  { zeroStart with
    tcphandle := .closed, closes := 1, data := .client, isReconnecting := true,
    timerReconnet := true }

theorem exec_disconnected :
    exec step zeroStart [.connected 0 0, .recvError, .closed] = some disconnected := rfl

/-- A thread sends `1` while the client waits for its reconnection, and `2` afterwards. -/
def lostWrite : List (Event zeroBuild) :=
  [.connected 0 0, .recvError, .closed] ++ ((sending 0 (oneByte 1) ++ flushing (-9)) ++
    ([.timer .ok, .connected 0 0] ++ (sending 0 (oneByte 2) ++ flushing 0)))

/-- The second message is written, the first is not. -/
theorem lostWrite_gap : ¬ Always step (fun s => s.out.NoGap) zeroStart lostWrite := by
  intro h
  have hflow₁ : exec (flow none) Pipe.start (sending 0 (oneByte 1) ++ flushing (-9)) = some
      { (Pipe.start : Pipe zeroBuild) with
        calls := [oneByte 1], accepted := [(0, 1)], taken := [1] } := by
    rw [exec_append_of_exec (exec_sending rfl (by decide) (by decide))]
    exact exec_flushing_failed rfl rfl (by decide) (by decide) (by decide)
  obtain ⟨o₁, hrun₁, hinv₁, hpipe₁⟩ := exec_flow (s := disconnected) (Outbound.inv_start _)
    rfl rfl rfl ((congrArg (exec (flow none) · _) (Outbound.pipe_start _)).trans hflow₁)
  have hreconnect := exec_reconnect (s := { disconnected with out := o₁ }) rfl
    (Outbound.idle_of_pipe (by rw [hpipe₁]; rfl)) rfl rfl
  have hflow₂ : exec (flow (some 1)) o₁.pipe (sending 0 (oneByte 2) ++ flushing 0) = some
      { o₁.pipe with
        calls := [oneByte 1, oneByte 2], accepted := [(0, 1), (1, 2)], taken := [1, 2]
        inflight := 1, writes := [(1, [2])] } := by
    rw [hpipe₁, exec_append_of_exec (exec_sending rfl (by decide) (by decide))]
    exact exec_flushing rfl rfl (by decide) (by decide)
  obtain ⟨o₂, hrun₂, -, hpipe₂⟩ := exec_flow (s := { disconnected with
    out := o₁, tcphandle := .connected 1 true, registered := true, closes := 0, data := .ctx,
    isReconnecting := false, timerReconnet := false, connectionEnd := 2 }) hinv₁ rfl rfl rfl hflow₂
  have hrun : exec step zeroStart lostWrite = _ :=
    (exec_append_of_exec exec_disconnected).trans ((exec_append_of_exec hrun₁).trans
      ((exec_append_of_exec hreconnect).trans hrun₂))
  have hprefix : o₂.pipe.written <+: o₂.pipe.acceptedBytes :=
    Outbound.NoGap.written_prefix (h.last hrun)
  rw [hpipe₂] at hprefix
  change [2] <+: [1, 2] at hprefix
  exact absurd hprefix (by decide)

end CTCPClient

end SimpleUv
