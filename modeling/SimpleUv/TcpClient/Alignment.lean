import SimpleUv.TcpClient.EndToEnd

/-!
# Frames across reconnections

The ring buffer, the thread in `Send` and the blocks of `send_inl` survive a reconnection, and nothing
ties them to a connection. What is written on a connection starts at the beginning of a message when
the bytes taken out of the ring buffer by then end at the end of one (`aligned_of_framed`). A message
that is cut by the end of its connection goes on where it was, on the next one (`cutMessage`).
-/

namespace SimpleUv

open Foundations

namespace Outbound

variable {B : Build}

/-- The bytes written on a connection. -/
def writtenOn (o : Outbound B) (n : ℕ) : List Byte := (o.writes.filter (·.1 == n)).flatMap Prod.snd

/-- The bytes written on each connection are whole messages, from the beginning of one on, where the
last may be cut off. -/
def Aligned (o : Outbound B) : Prop :=
  ∀ n, ∃ pre rest, o.calls = pre ++ rest ∧ o.writtenOn n <+: streamOf rest

/-- The bytes taken out of the ring buffer are whole messages. -/
def AtBoundary (o : Outbound B) : Prop := ∃ pre, pre <+: o.calls ∧ o.taken = streamOf pre

end Outbound

namespace Pipe

variable {B : Build} {p q : Pipe B} {flag : Bool} {socket : Option ℕ} {e : CTCPClient.Event B} {r n : ℕ}

/-- The bytes written on a connection. -/
def writtenOn (p : Pipe B) (n : ℕ) : List Byte := (p.writes.filter (·.1 == n)).flatMap Prod.snd

/-- What was written on each connection starts with a message. -/
def Aligned (p : Pipe B) : Prop :=
  ∀ n, ∃ pre rest, p.calls = pre ++ rest ∧ p.writtenOn n <+: streamOf rest

/-- What was taken since the connection with the socket has it is written on it, or about to be, and it
starts with a message. -/
def OnSocket (socket : Option ℕ) (p : Pipe B) : Prop :=
  ∀ n, socket = some n → ∃ pre rest, p.calls = pre ++ rest ∧
    p.taken = streamOf pre ++ (p.writtenOn n ++ p.held)

theorem writtenOn_append (writes : List (ℕ × List Byte)) (m n : ℕ) (block : List Byte) :
    ((writes ++ [(m, block)]).filter (·.1 == n)).flatMap Prod.snd =
      (writes.filter (·.1 == n)).flatMap Prod.snd ++ if m = n then block else [] := by
  rw [List.filter_append, List.flatMap_append]
  congr 1
  by_cases h : m = n <;> simp [h]

/-- Steps that take nothing and write nothing. -/
theorem OnSocket.of_eq (h : p.OnSocket socket) (hcalls : p.calls <+: q.calls)
    (htaken : q.taken = p.taken) (hwrites : q.writes = p.writes) (hheld : q.held = p.held) :
    q.OnSocket socket := by
  intro n hn
  obtain ⟨pre, rest, hpre, heq⟩ := h n hn
  obtain ⟨more, hmore⟩ := hcalls
  refine ⟨pre, rest ++ more, ?_, ?_⟩
  · rw [← hmore, hpre, List.append_assoc]
  · rw [htaken, hheld, writtenOn, hwrites]
    exact heq

theorem OnSocket.effect (h : p.OnSocket socket) (he : Effect flag socket p e q)
    (hres : ∀ res, e = .uvWrite res → socket ≠ none → res = 0) : q.OnSocket socket := by
  have hsame : p.calls <+: p.calls := List.prefix_rfl
  cases he with
  | same | check | write | signal | userClose => exact h.of_eq hsame rfl rfl rfl
  | call hs hdata => exact h.of_eq (List.prefix_append _ _) rfl rfl rfl
  | empty hloop | recv hloop =>
    exact h.of_eq hsame rfl rfl (held_eq_nil fun _ _ hw => by cases hloop.symm.trans hw).symm
  | async hloop | completed hloop =>
    have hp : p.held = [] := held_eq_nil fun _ _ hw => by cases hloop.symm.trans hw
    refine h.of_eq hsame rfl rfl ((held_eq_nil fun block recv => ?_).trans hp.symm)
    simp only
    split_ifs <;> intro hw <;> cases hw
  | take hloop hq =>
    have hp : p.held = [] := held_eq_nil fun _ _ hw => by cases hloop.symm.trans hw
    intro n hn
    obtain ⟨pre, rest, hpre, heq⟩ := h n hn
    refine ⟨pre, rest, hpre, ?_⟩
    show p.taken ++ p.queue.take bufferSize = streamOf pre ++ (p.writtenOn n ++ p.queue.take bufferSize)
    rw [heq, hp, List.append_nil, List.append_assoc]
  | @wrote block recv m hloop hsocket =>
    intro n hn
    obtain ⟨pre, rest, hpre, heq⟩ := h n hn
    obtain rfl : m = n := Option.some.inj (hsocket.symm.trans hn)
    refine ⟨pre, rest, hpre, ?_⟩
    have hheld : p.held = block := by rw [held, hloop]
    show p.taken = streamOf pre ++ (((p.writes ++ [(m, block)]).filter (·.1 == m)).flatMap Prod.snd ++ [])
    rw [heq, writtenOn_append, if_pos rfl, List.append_nil, hheld, writtenOn]
  | failed hloop hne =>
    intro n hn
    exact absurd (hres _ rfl fun hnone => by cases hn.symm.trans hnone) hne

/-- What is written on the connection with the socket is a first part of its messages. -/
theorem OnSocket.prefix_streamOf (h : p.OnSocket socket) (hp : p.Flows)
    (hseq : p.Sequential flag r (p.calls.map Chunk.bytes)) (hn : socket = some n) :
    ∃ pre rest, p.calls = pre ++ rest ∧ p.writtenOn n <+: streamOf rest := by
  obtain ⟨pre, rest, hpre, heq⟩ := h n hn
  refine ⟨pre, rest, hpre, ?_⟩
  have hstream : p.taken <+: streamOf p.calls := by
    have hprefix := hseq.prefix_flatten
    rw [hp.accepted, ← List.flatMap_def] at hprefix
    exact (List.prefix_append _ _).trans hprefix
  rw [heq, hpre, streamOf_append, List.prefix_append_right_inj] at hstream
  exact (List.prefix_append _ _).trans hstream

theorem Aligned.effect (h : p.Aligned) (he : Effect flag socket p e q) (hsocket : q.OnSocket socket)
    (hq : q.Flows) (hseq : q.Sequential flag r (q.calls.map Chunk.bytes)) : q.Aligned := by
  have hold : ∀ n, q.writtenOn n = p.writtenOn n → p.calls <+: q.calls →
      ∃ pre rest, q.calls = pre ++ rest ∧ q.writtenOn n <+: streamOf rest := by
    rintro n hn ⟨more, hmore⟩
    obtain ⟨pre, rest, hpre, hprefix⟩ := h n
    refine ⟨pre, rest ++ more, by rw [← hmore, hpre, List.append_assoc], ?_⟩
    rw [hn, streamOf_append]
    exact hprefix.trans (List.prefix_append _ _)
  cases he with
  | call hs hdata => exact fun n => hold n rfl (List.prefix_append _ _)
  | @wrote block recv m hloop hm =>
    intro n
    by_cases hmn : m = n
    · exact hsocket.prefix_streamOf hq hseq (hmn ▸ hm)
    · refine hold n ?_ List.prefix_rfl
      rw [writtenOn, writtenOn_append, if_neg hmn, List.append_nil, writtenOn]
  | _ => exact fun n => hold n rfl List.prefix_rfl

theorem writtenOn_eq_nil (h : ∀ w ∈ p.writes, w.1 < n) : p.writtenOn n = [] := by
  have hnone : p.writes.filter (·.1 == n) = [] :=
    List.filter_eq_nil_iff.2 fun w hw heq => (h w hw).ne (eq_of_beq heq)
  rw [writtenOn, hnone, List.flatMap_nil]

/-- A write has the number of the socket. -/
theorem writes_lt (h : ∀ w ∈ p.writes, w.1 < n) (hsocket : ∀ m, socket = some m → m < n)
    (he : Effect flag socket p e q) : ∀ w ∈ q.writes, w.1 < n := by
  cases he with
  | wrote hloop hm =>
    intro w hw
    rcases List.mem_append.1 hw with hw | hw
    · exact h w hw
    · rw [List.mem_singleton.1 hw]
      exact hsocket _ hm
  | _ => exact h

end Pipe

namespace CTCPClient

variable {B : Build} {s t : CTCPClient B} {e : Event B} {r : ℕ}

/-- One thread calls `Send`. -/
def OneSender (r : ℕ) : Event B → Prop
  | .call t _ | .send t => t = r
  | _ => True

/-- A new attempt to connect finds the taken bytes at the end of a message, and no `uv_write` on a
handle with a socket fails. -/
def Framed (s : CTCPClient B) (e : Event B) : Prop :=
  (e = .timer .ok → s.isReconnecting = true → s.out.AtBoundary) ∧
    ∀ res, e = .uvWrite res → s.tcphandle.socket ≠ none → res = 0

/-- The invariant of runs whose connections start at the end of a message. -/
structure FrameInv (r : ℕ) (s : CTCPClient B) : Prop where
  sound : s.Sound
  sequential : s.out.pipe.Sequential s.isUserAskForClosed r (s.out.calls.map Chunk.bytes)
  onSocket : s.out.pipe.OnSocket s.tcphandle.socket
  aligned : s.out.Aligned
  fresh : ∀ w ∈ s.out.writes, w.1 < s.connectionEnd
  socket_lt : ∀ n, s.tcphandle.socket = some n → n < s.connectionEnd

theorem frameInv_start (r : ℕ) (memory : List.Vector Byte bufferSize) (u : Uninit) :
    (start B memory u).FrameInv r where
  sound := sound_start memory u
  sequential := .idle rfl rfl
  onSocket n hn := ⟨[], [], rfl, rfl⟩
  aligned n := ⟨[], [], rfl, List.prefix_rfl⟩
  fresh := nofun
  socket_lt n hn := by
    cases hn
    exact Nat.zero_lt_one

theorem FrameInv.step (h : s.FrameInv r) (hr : OneSender r e) (hframed : s.Framed e)
    (hstep : s.step e = some t) : t.FrameInv r := by
  have hsound := h.sound.step hstep
  have heffect := h.sound.effect hstep
  have honSocket := h.onSocket.effect heffect hframed.2
  have hseq : t.out.pipe.Sequential s.isUserAskForClosed r (t.out.calls.map Chunk.bytes) := by
    refine h.sequential.step ?_ ?_ h.sound.inv.iret_le (step_pipe hstep h.sound.inv)
    · rintro t data rfl
      exact hr
    · rintro t rfl
      exact hr
  refine ⟨hsound, ?_, ?_, ?_, ?_, ?_⟩
  · rcases flag_mono hstep with hflag | hflag
    · rw [hflag]
      exact hseq
    · rw [hflag]
      exact hseq.close
  · rcases socket_of_step hstep with ⟨-, hsocket | hsocket⟩ | ⟨rfl, hreconnecting, hsocket, -⟩
    · rw [hsocket]
      exact honSocket
    · rw [hsocket]
      exact fun n => nofun
    · obtain ⟨hidle, hout⟩ := step_out hstep
      obtain ⟨pre, ⟨rest, hrest⟩, htaken⟩ := hframed.1 rfl hreconnecting
      rw [hsocket, hout]
      rintro n ⟨⟩
      refine ⟨pre, rest, hrest.symm, ?_⟩
      have hheld : s.out.pipe.held = [] :=
        Pipe.held_eq_nil (by rw [Outbound.pipe_loop, hidle]; exact fun _ _ => nofun)
      rw [Pipe.writtenOn_eq_nil h.fresh, hheld, List.append_nil, List.append_nil]
      exact htaken
  · exact Pipe.Aligned.effect (p := s.out.pipe) h.aligned heffect honSocket hsound.flows hseq
  · have hwrites := Pipe.writes_lt (p := s.out.pipe) h.fresh h.socket_lt heffect
    have hend : s.connectionEnd ≤ t.connectionEnd := by
      rcases socket_of_step hstep with ⟨hend, -⟩ | ⟨-, -, -, hend⟩ <;> omega
    exact fun w hw => (hwrites w hw).trans_le hend
  · intro n hn
    rcases socket_of_step hstep with ⟨hend, hsocket | hsocket⟩ | ⟨-, -, hsocket, hend⟩
    · rw [hend]
      exact h.socket_lt n (hsocket ▸ hn)
    · rw [hsocket] at hn
      cases hn
    · rw [hsocket] at hn
      cases hn
      omega

/-- **What is written on each connection starts with a message** when every connection after the first
finds the taken bytes at the end of a message and no write on a handle with a socket fails. -/
theorem aligned_of_framed (r : ℕ) (memory : List.Vector Byte bufferSize) (u : Uninit)
    (es : List (Event B)) (hes : ∀ e ∈ es, OneSender r e)
    (h : Along step Framed (start B memory u) es) :
    Always step (fun s => s.out.Aligned) (start B memory u) es :=
  (always_of_along (fun _ _ _ hs hok hstep => hs.step hok.2 hok.1 hstep) (frameInv_start r memory u)
    (h.and_mem hes)).mono fun _ hs => hs.aligned

/-- A message is sent and written, the connection ends, and another message goes to the next one. -/
def reconnectRun : List (Event zeroBuild) :=
  ([.connected 0 0] ++ (sending 0 (oneByte 1) ++ flushing 0) ++ [.recvError, .closed]) ++
    ([.timer .ok, .connected 0 0] ++ (sending 0 (oneByte 2) ++ flushing 0))

/-- Both messages are written, and the reconnection finds the first one taken as a whole. -/
theorem exec_reconnectRun :
    (∃ t, exec step zeroStart ([.connected 0 0] ++ (sending 0 (oneByte 1) ++ flushing 0) ++
      [.recvError, .closed]) = some t ∧ t.out.AtBoundary) ∧
    ∃ t, exec step zeroStart reconnectRun = some t ∧ t.out.writes = [(0, [1]), (1, [2])] := by
  have hflow₁ : ∃ p, exec (flow (some 0)) Pipe.start (sending 0 (oneByte 1) ++ flushing 0) = some p ∧
      p = { (Pipe.start : Pipe zeroBuild) with
        calls := [oneByte 1], accepted := [(0, 1)], taken := [1], inflight := 1, writes := [(0, [1])] } := by
    rw [exec_append_of_exec (exec_sending rfl (by decide) (by decide))]
    exact ⟨_, exec_flushing rfl rfl (by decide) (by decide), rfl⟩
  obtain ⟨p₁, hflow₁, hp₁⟩ := hflow₁
  obtain ⟨o₁, hrun₁, hinv₁, rfl⟩ := exec_connected hflow₁
  have hidle : o₁.loop = .idle := Outbound.idle_of_pipe (by rw [hp₁]; rfl)
  have hend := exec_disconnect (s := { connectedStart with out := o₁ }) rfl hidle rfl rfl
  have hnext := exec_nextConnection (s := { connectedStart with out := o₁ }) rfl hidle rfl rfl
  have hflow₂ : ∃ p, exec (flow (some 1)) o₁.pipe (sending 0 (oneByte 2) ++ flushing 0) = some p ∧
      p.writes = [(0, [1]), (1, [2])] := by
    rw [hp₁, exec_append_of_exec (exec_sending rfl (by decide) (by decide))]
    exact ⟨_, exec_flushing rfl rfl (by decide) (by decide), rfl⟩
  obtain ⟨p₂, hflow₂, hwrites⟩ := hflow₂
  obtain ⟨o₂, hrun₂, -, rfl⟩ := exec_flow (s := { connectedStart with
    out := o₁, tcphandle := .connected 1 true, registered := true, closes := 0, data := .ctx,
    isReconnecting := false, timerReconnet := false, connectionEnd := 2 }) hinv₁ rfl rfl rfl hflow₂
  have hcalls : o₁.calls = [oneByte 1] := congrArg Pipe.calls hp₁
  have htaken : o₁.taken = [1] := congrArg Pipe.taken hp₁
  have hboundary : o₁.AtBoundary := ⟨[oneByte 1], hcalls ▸ List.prefix_rfl, htaken⟩
  exact ⟨⟨_, (exec_append_of_exec hrun₁).trans hend, hboundary⟩, _,
    (exec_append_of_exec hrun₁).trans ((exec_append_of_exec hnext).trans hrun₂), hwrites⟩

theorem aligned_reconnect : ∃ t, exec step zeroStart reconnectRun = some t ∧
    t.out.writes = [(0, [1]), (1, [2])] ∧ t.out.Aligned := by
  obtain ⟨⟨s, hs, hboundary⟩, t, ht, hwrites⟩ := exec_reconnectRun
  have hother (es : List (Event zeroBuild))
      (hes : ∀ e ∈ es, e ≠ .timer .ok ∧ ∀ res, e = .uvWrite res → res = 0)
      (u : CTCPClient zeroBuild) : Along step Framed u es := by
    refine .of_forall (fun _ e he => ⟨fun htimer => ?_, fun res hres _ => (hes e he).2 res hres⟩) u
    exact absurd htimer (hes e he).1
  have hframed : Along step Framed zeroStart reconnectRun := by
    refine .append (hother _ (by simp [sending, flushing]) _) fun u hu => ?_
    rw [hs] at hu
    cases hu
    exact fun v _ => ⟨⟨fun _ _ => hboundary, by simp⟩, hother _ (by simp [sending, flushing]) v⟩
  have halways := aligned_of_framed 0 _ _ reconnectRun
    (by simp [reconnectRun, sending, flushing, OneSender]) hframed
  exact ⟨t, ht, hwrites, halways.last ht⟩

/-! ## A message that is cut -/

/-- The connection ends when the first part of the bytes is written. The rest is written on the next
one. -/
def cutRun (data : Chunk zeroBuild) : List (Event zeroBuild) :=
  ([.connected 0 0] ++ ([.call 0 data] ++ ([.send 0, .send 0] ++ (flushing 0 ++
    [.afterSend 0 0, .drain])))) ++
      (([.recvError, .closed] ++ [.timer .ok, .connected 0 0]) ++
        (([.send 0, .send 0] ++ [.send 0]) ++ flushing 0))

theorem exec_cutRun (data : Chunk zeroBuild) (hlong : bufferSize < data.bytes.length)
    (hle : data.bytes.length ≤ 2 * bufferSize) :
    ∃ s, exec step zeroStart (cutRun data) = some s ∧ s.out.pipe.calls = [data] ∧
      s.out.pipe.writes = [(0, data.bytes.take bufferSize), (1, data.bytes.drop bufferSize)] := by
  have hB := bufferSize_eq
  have hshort : data.bytes.length < 2 ^ 31 := by omega
  have htake : (data.bytes.take bufferSize).length = bufferSize := by
    rw [List.length_take]
    omega
  have hdrop : (data.bytes.drop bufferSize).length ≤ bufferSize := by
    rw [List.length_drop]
    omega
  have hflow₁ : ∃ p, exec (flow (some 0)) Pipe.start ([.call 0 data] ++ ([.send 0, .send 0] ++
      (flushing 0 ++ [.afterSend 0 0, .drain]))) = some p ∧
      p.senders 0 = some ⟨0, data, 0 + bufferSize, .check⟩ ∧ p.queue = [] ∧ p.loop = .idle ∧
      p.calls = [data] ∧ p.writes = [(0, data.bytes.take bufferSize)] := by
    refine ⟨_, (exec_append_of_exec (exec_call rfl (List.ne_nil_of_length_pos (by omega)))).trans
      ((exec_append_of_exec (exec_filling (s := ⟨0, data, 0, .check⟩) rfl rfl rfl
        (by show 0 + bufferSize < data.bytes.length; omega) hshort)).trans
      ((exec_append_of_exec (exec_flushing rfl rfl (List.ne_nil_of_length_pos ?_) htake.le)).trans
        (exec_completed rfl rfl rfl))), rfl, rfl, rfl, rfl, rfl⟩
    show 0 < (data.bytes.take bufferSize).length
    omega
  obtain ⟨p₁, hflow₁, hsender, hqueue, hidle, hcalls, hwrites⟩ := hflow₁
  obtain ⟨o₁, hrun₁, hinv, rfl⟩ := exec_connected hflow₁
  have hnext := exec_nextConnection (s := { connectedStart with out := o₁ }) rfl
    (Outbound.idle_of_pipe hidle) rfl rfl
  have hflow₂ : ∃ p, exec (flow (some 1)) o₁.pipe (([.send 0, .send 0] ++ [.send 0]) ++ flushing 0) =
      some p ∧ p.calls = [data] ∧
      p.writes = [(0, data.bytes.take bufferSize), (1, data.bytes.drop bufferSize)] := by
    have hrest : o₁.pipe.queue ++ (Sender.rest ⟨0, data, 0 + bufferSize, .check⟩) =
        data.bytes.drop bufferSize := by
      rw [hqueue, List.nil_append, Sender.rest, Nat.zero_add]
    refine ⟨_, (exec_append_of_exec (exec_returning hsender rfl
      (by show 0 + bufferSize ≤ data.bytes.length; omega) hshort ?_)).trans
      (exec_flushing hidle rfl ?_ ?_), hcalls, ?_⟩
    · rw [← List.length_append, hrest]
      exact hdrop
    · show o₁.pipe.queue ++ _ ≠ []
      rw [hrest]
      exact List.ne_nil_of_length_pos (by rw [List.length_drop]; omega)
    · show (o₁.pipe.queue ++ _).length ≤ bufferSize
      rw [hrest]
      exact hdrop
    · show o₁.pipe.writes ++ [(1, o₁.pipe.queue ++ _)] = _
      rw [hrest, hwrites]
      rfl
  obtain ⟨p₂, hflow₂, hcalls₂, hwrites₂⟩ := hflow₂
  obtain ⟨o₂, hrun₂, -, rfl⟩ := exec_flow (s := { connectedStart with
    out := o₁, tcphandle := .connected 1 true, registered := true, closes := 0, data := .ctx,
    isReconnecting := false, timerReconnet := false, connectionEnd := 2 }) hinv rfl rfl rfl hflow₂
  exact ⟨_, (exec_append_of_exec hrun₁).trans ((exec_append_of_exec hnext).trans hrun₂), hcalls₂,
    hwrites₂⟩

/-- An object of 10240 bytes, with a zero where the ring buffer is full. -/
theorem cutRun_not_aligned (m : Message zeroBuild) (hlen : m.msg.length = 10240)
    (hbyte : m.msg[10189]? = some 0) :
    ¬ Always step (fun s => s.out.Aligned) zeroStart (cutRun m.frame) := by
  intro h
  have hB := bufferSize_eq
  have hhead : zeroBuild.headLen = 50 := rfl
  have hframe : m.frame.bytes.length = 10292 := by
    show m.packetData.length = 10292
    rw [Message.length_packetData, hlen, hhead]
  obtain ⟨s, hrun, hcalls, hwrites⟩ := exec_cutRun m.frame (by omega) (by omega)
  obtain ⟨pre, rest, hpre, hprefix⟩ := h.last hrun 1
  have hwritten : s.out.writtenOn 1 = m.frame.bytes.drop bufferSize := by
    rw [Outbound.writtenOn, show s.out.writes = _ from hwrites]
    exact List.append_nil _
  have hcut : (m.frame.bytes.drop bufferSize)[0]? = some 0 := by
    rw [List.getElem?_drop, ← hbyte, ← m.getElem?_packetData (by omega), hhead, hB]
    rfl
  have hfirst : m.frame.bytes[0]? = some serverPacketHead := by
    show m.packetData[0]? = _
    rw [Message.packetData_eq, Outgoing.wire_eq, List.getElem?_cons_zero]
  rw [hwritten] at hprefix
  replace hpre : [m.frame] = pre ++ rest := hcalls.symm.trans hpre
  rcases List.append_eq_singleton_iff.1 hpre.symm with ⟨rfl, rfl⟩ | ⟨rfl, rfl⟩
  · obtain ⟨more, hmore⟩ := hprefix
    rw [streamOf, List.flatMap_singleton] at hmore
    rw [← hmore, List.getElem?_append_left (by rw [List.length_drop]; omega), hcut] at hfirst
    exact absurd hfirst (by decide)
  · have hnil := congrArg List.length (List.prefix_nil.1 hprefix)
    rw [List.length_drop, List.length_nil] at hnil
    omega

/-- An object of 10240 zero bytes, whose frame does not fit into the ring buffer. -/
def bigMessage : Message zeroBuild where
  msg := .replicate 10240 0
  nMsgType := 1
  tmppack := ⟨0, 0, 0, .replicate 16 0, 0, 0, 0⟩
  packchar := .replicate _ 0
  short := by
    rw [List.length_replicate]
    decide

/-- The second connection starts in the middle of the frame. -/
theorem cutMessage : ¬ Always step (fun s => s.out.Aligned) zeroStart (cutRun bigMessage.frame) :=
  cutRun_not_aligned bigMessage List.length_replicate
    (List.getElem?_replicate_of_lt (by decide))

end CTCPClient

end SimpleUv
