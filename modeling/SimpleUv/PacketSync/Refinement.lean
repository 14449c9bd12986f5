import SimpleUv.PacketSync.Calls

/-!
# The parser refines the reference parser

`turn_spec`: an iteration whose search and length survive the conversions to `int` keeps the
invariant, takes decisions of `signedScan` on the bytes held and the unread input, and makes the
measure `work` smaller, or waits with nothing to decide. From it the loop, the call and the sequence
of calls follow by induction (`recvLoop_spec`, `feed_spec`).
-/

namespace SimpleUv

open Foundations

namespace CPacketSync

variable {B : Build} {head tail : Byte} {cap : ℕ} {p p' q : CPacketSync} {data : List Byte}
  {iret i : ℕ}

/-- Rejected frames fit into a read buffer of `cap` bytes. -/
def RoomFor (B : Build) (head tail : Byte) (cap : ℕ) (xs : List Byte) : Prop :=
  cap = maxCap B ∨ (signedScan B head tail).Everywhere
    (RejectAtMost B head tail (fun b => charToInt b == tail.toNat) (cap - B.headLen - 1)) xs

theorem RoomFor.of_steps {xs ys : List Byte} {out : List Packet}
    (h : RoomFor B head tail cap xs) (hs : (signedScan B head tail).Steps xs out ys) :
    RoomFor B head tail cap ys := h.imp_right fun h => h.of_steps hs

theorem RoomFor.of_append {xs ys : List Byte} (h : RoomFor B head tail cap (xs ++ ys)) :
    RoomFor B head tail cap xs :=
  h.imp_right fun h => h.of_append fun _ _ => RejectAtMost.of_append

/-- What a call has to work on: every byte held once, every unread byte twice. -/
def work (B : Build) (p : CPacketSync) (data : List Byte) (iret : ℕ) : ℕ :=
  (p.pending B).length + 2 * (data.length - iret)

/-- The iteration goes on: it took decisions of the reference parser, and there is less to do. -/
def Advances (B : Build) (head tail : Byte) (cap : ℕ) (p : CPacketSync) (data : List Byte)
    (iret : ℕ) (r : Option Turn) : Prop :=
  ∃ p' i' o, r = some (.next p' i' o) ∧ Inv B head tail cap p' ∧ i' ≤ data.length ∧
    (signedScan B head tail).Steps (p.pending B ++ data.drop iret)
      (o.toList.map Delivery.packet) (p'.pending B ++ data.drop i') ∧
    p'.work B data i' < p.work B data iret

/-- The call returns: all input is held, and the reference parser waits. -/
def Waits (B : Build) (head tail : Byte) (cap : ℕ) (p : CPacketSync) (data : List Byte)
    (iret : ℕ) (r : Option Turn) : Prop :=
  ∃ p', r = some (.ret p') ∧ Inv B head tail cap p' ∧
    (signedScan B head tail).Steps (p.pending B ++ data.drop iret) [] (p'.pending B) ∧
    (signedScan B head tail).decide (p'.pending B) = none

/-- A frame that waits leaves the reference parser nothing to decide. -/
theorem Waiting.decide_pending (hw : Waiting B head tail p) (hb : Buffers head tail cap p)
    (hp : p.parsetype = .head) : (signedScan B head tail).decide (p.pending B) = none := by
  obtain ⟨hdr, hhdr⟩ := hw.headerBytes_eq
  have hlen := hw.length_headerBytes hb
  have hgot := hw.got_le
  have hc := candidate_append hw.header (p.threadPacketdata.base.take p.getdatalen)
  simp only [pending, hp]
  rw [hhdr, List.length_cons] at hlen
  rw [hhdr, List.cons_append] at hc ⊢
  refine decide_incomplete hc ?_
  rw [List.length_append, List.length_take]
  omega

/-- From a complete frame on: the decision on the frame. -/
theorem checkFrame_advances (hb : Buffers head tail cap p) (hcap : cap ≤ maxCap B)
    (hc : Complete B head tail p) (hroom : RoomFor B head tail cap (p.stream B ++ data.drop i)) :
    ∃ p' o, p.checkFrame B = some (p', o) ∧ Inv B head tail cap p' ∧
      (signedScan B head tail).Steps (p.stream B ++ data.drop i)
        (o.toList.map Delivery.packet) (p'.pending B ++ data.drop i) ∧
      (p'.pending B).length < (p.stream B).length := by
  obtain ⟨hdr, hhdr⟩ := hc.headerBytes_eq
  have hdl := hc.datalen_le
  have hcand : candidate B head tail (p.stream B ++ data.drop i) = some p.theNexPacket := by
    rw [hc.stream_eq, List.append_assoc, List.append_assoc]
    exact candidate_append hc.header _
  obtain ⟨p', o, n, hcheck, hb', hp', hdec, hn, hpend⟩ :=
    checkFrame_spec hb hcap hc (data.drop i) (by
      intro hd
      rcases hroom with rfl | hr
      · unfold maxCap
        omega
      · have := hr.here _ hcand hd
        have := hb.size_le.trans hb.len_le
        have := headLen_le B
        rw [bufferSize_eq] at *
        omega)
  have hn₀ := ((signedScan B head tail).pos hdec).1
  refine ⟨p', o, hcheck, .of_nothing hb' hp', ?_, ?_⟩
  · have hs := Decoder.Steps.one hdec
    rw [List.drop_append_of_le_length hn, ← hpend] at hs
    cases o <;> exact hs
  · rw [hpend, List.length_drop]
    omega

/-- The part of an iteration behind the search, for a frame that waits. -/
theorem turnBody_waiting (hb : Buffers head tail cap p) (hcap : cap ≤ maxCap B)
    (hp : p.parsetype = .head) (hw : Waiting B head tail p) (hi : i ≤ data.length)
    (hd : 2 * data.length < B.sizeT.modulus)
    (hroom : RoomFor B head tail cap (p.pending B ++ data.drop i)) :
    Advances B head tail cap p data i (p.turnBody B data i) ∨
      Waits B head tail cap p data i (p.turnBody B data i) := by
  rcases fillBody_spec hb hp hw hi hd with
    ⟨p', hfill, hb', hp', hw', hpend⟩ | ⟨p', i', hfill, hb', hc, hlt, hi', hstream⟩
  · right
    refine ⟨p', ?_, { hb' with waiting := fun _ => hw' }, ?_, hw'.decide_pending hb' hp'⟩
    · simp only [turnBody, hfill, Option.bind_eq_bind, Option.bind_some]
    · rw [hpend]
      exact .refl _
  · left
    rw [← hstream] at hroom
    obtain ⟨p'', o, hcheck, hinv, hs, hlen⟩ := checkFrame_advances hb' hcap hc hroom
    refine ⟨p'', i', o, ?_, hinv, hi', ?_, ?_⟩
    · simp only [turnBody, hfill, Option.bind_eq_bind, Option.bind_some, hcheck]
    · rw [← hstream]
      exact hs
    · have := congrArg List.length hstream
      simp only [List.length_append, List.length_drop] at this
      unfold work
      omega

/-- The part of an iteration behind the search, for a frame that is complete. -/
theorem turnBody_complete (hb : Buffers head tail cap p) (hcap : cap ≤ maxCap B)
    (hc : Complete B head tail p) (hroom : RoomFor B head tail cap (p.stream B ++ data.drop i)) :
    ∃ p' o, p.turnBody B data i = some (.next p' i o) ∧ Inv B head tail cap p' ∧
      (signedScan B head tail).Steps (p.stream B ++ data.drop i)
        (o.toList.map Delivery.packet) (p'.pending B ++ data.drop i) ∧
      (p'.pending B).length < (p.stream B).length := by
  obtain ⟨p', o, hcheck, hinv, hs, hlen⟩ := checkFrame_advances hb hcap hc hroom
  refine ⟨p', o, ?_, hinv, hs, hlen⟩
  simp only [turnBody, fillBody_complete hc, Option.bind_eq_bind, Option.bind_some, hcheck]

/-- What the search of an iteration sees is the window. -/
theorem topUp_window (h : Buffers head tail cap p) (hcap : cap ≤ maxCap B)
    (hi : iret ≤ data.length) (hd : 2 * data.length < B.sizeT.modulus) :
    ∃ p₁ n, p.topUp B data iret = some (p₁, iret + n) ∧
      n = min (data.length - iret) (p.threadReaddata.len - p.truepacketlen) ∧
      Buffers head tail cap p₁ ∧ p₁.parsetype = p.parsetype ∧
      p₁.truepacketlen = p.truepacketlen + n ∧
      p₁.threadReaddata.base.take p₁.truepacketlen = p.window data iret ∧
      p₁.threadReaddata.base.take p₁.truepacketlen ++ data.drop (iret + n) =
        p.threadReaddata.base.take p.truepacketlen ++ data.drop iret := by
  have htrue := h.true_le
  obtain ⟨rd, n, hn, htop, hrd, htake⟩ := topUp_spec h hcap hi (by omega)
  have hl : (p.threadReaddata.base.take p.truepacketlen).length = p.truepacketlen := by
    unfold UvBuf.len at htrue
    rw [List.length_take]
    omega
  refine ⟨_, n, htop, hn, ⟨h.cb, h.head_eq, h.tail_eq, hrd ▸ h.size_le, hrd ▸ h.len_le, ?_⟩, rfl,
    rfl, ?_, ?_⟩
  · show p.truepacketlen + n ≤ rd.len
    omega
  · simp only [htake]
    rw [window, List.take_append, hl, List.take_take, Nat.min_eq_right htrue, slice, hn]
    congr 1
    rw [List.take_eq_take_iff, List.length_drop]
    omega
  · simp only [htake]
    rw [List.append_assoc, slice, ← List.drop_drop, List.take_append_drop]

/-- **One iteration** takes decisions of the reference parser. -/
theorem turn_spec (h : Inv B head tail cap p) (hcap : cap ≤ maxCap B) (hi : iret ≤ data.length)
    (hd : 2 * data.length < B.sizeT.modulus) (hg : p.Goes B data iret)
    (hroom : RoomFor B head tail cap (p.pending B ++ data.drop iret))
    (hfit : p.HeadposSurvives B data iret) (hlen : p.DatalenSurvives B data iret) :
    Advances B head tail cap p data iret (p.turn B data iret) ∨
      Waits B head tail cap p data iret (p.turn B data iret) := by
  have hb := h.toBuffers
  cases hp : p.parsetype with
  | head =>
    simp only [turn, hp]
    exact turnBody_waiting hb hcap hp (h.waiting hp) hi hd hroom
  | nothing =>
    have hsize := hb.size_le
    have htrue := hb.true_le
    rw [bufferSize_eq] at hsize
    have hpl := hb.length_pending (B := B) hp
    obtain ⟨p₁, n, htop, hn, hb₁, hp₁, htrue₁, hwin, hdrop⟩ := topUp_window hb hcap hi hd
    rw [hp] at hp₁
    have hpend : p₁.pending B ++ data.drop (iret + n) = p.pending B ++ data.drop iret := by
      simpa only [pending, hp₁, hp] using hdrop
    -- the loop goes on because there is input, or enough is held for a frame
    have hpos : 0 < p₁.truepacketlen := by
      rw [htrue₁]
      rcases hg with hg | hg <;> omega
    have hfit₁ := hfit hp
    have hlen₁ := hlen hp
    rw [hb.head_eq, ← hwin] at hfit₁
    rw [hb.head_eq, hb.tail_eq, ← hwin] at hlen₁
    have hsearch := searchHead_spec hb₁ hcap hp₁ (data.drop (iret + n)) hfit₁ hlen₁ hpos
    rw [SearchResult, hpend] at hsearch
    simp only [turn, hp, htop, Option.bind_eq_bind, Option.bind_some]
    rcases hsearch with ⟨p', hs, hb', hp', hsteps, hless⟩ | ⟨p', hs, hb', hp', hw, hsteps, hle⟩
    · left
      rw [hs]
      have hpl' := hb'.length_pending (B := B) hp'
      have hH := headLen_le B
      refine ⟨p', _, none, rfl, .of_nothing hb' hp', by omega, by simpa using hsteps, ?_⟩
      unfold work
      rw [hpl, hpl']
      rcases hless with hless | ⟨hless, hshort⟩
      · omega
      · rcases hg with hg | hg <;> omega
    · rw [hs, Option.bind_some]
      have hroom' := hroom.of_steps hsteps
      rcases hw with hw | hc
      · have hst : p'.stream B = p'.pending B := by
          have := hw.got_le
          have := hw.avail_le
          simp only [stream, pending, hp']
          rw [if_neg (by omega)]
        rw [hst] at hsteps hroom' hle
        rcases turnBody_waiting hb' hcap hp' hw (i := iret + n) (by omega) hd hroom' with
          ⟨p'', i', o, ht, hinv, hi', hs', hlt⟩ | ⟨p'', ht, hinv, hs', hdec⟩
        · left
          refine ⟨p'', i', o, ht, hinv, hi', by simpa using hsteps.trans hs', ?_⟩
          unfold work at hlt ⊢
          omega
        · right
          exact ⟨p'', ht, hinv, by simpa using hsteps.trans hs', hdec⟩
      · left
        obtain ⟨p'', o, ht, hinv, hs', hlt⟩ := turnBody_complete hb' hcap hc hroom'
        refine ⟨p'', _, o, ht, hinv, by omega, by simpa using hsteps.trans hs', ?_⟩
        unfold work
        omega

/-- An index of a head byte that does not survive is a fault. -/
theorem turn_fault (h : Inv B head tail cap p) (hcap : cap ≤ maxCap B) (hi : iret ≤ data.length)
    (hd : 2 * data.length < B.sizeT.modulus) (hfit : ¬ p.HeadposSurvives B data iret) :
    p.turn B data iret = none := by
  simp only [HeadposSurvives, Classical.not_imp] at hfit
  obtain ⟨hp, hq⟩ := hfit
  have hb := h.toBuffers
  obtain ⟨p₁, n, htop, -, hb₁, -, -, hwin, -⟩ := topUp_window hb hcap hi hd
  rw [hb.head_eq, ← hb₁.head_eq, ← hwin] at hq
  simp only [turn, hp, htop, Option.bind_eq_bind, Option.bind_some]
  rw [searchHead_fault hb₁.true_le (hb₁.len_le.trans hcap) hq]
  rfl

/-! ## Calls -/

/-- The invariant at the loop heads of a call, and the decisions taken so far. -/
theorem LoopHead.inv (h : LoopHead B data p iret q i) (hp : Inv B head tail cap p)
    (hcap : cap ≤ maxCap B) (hi : iret ≤ data.length) (hd : 2 * data.length < B.sizeT.modulus)
    (hroom : RoomFor B head tail cap (p.pending B ++ data.drop iret))
    (hok : ∀ r j out, LoopHead B data p iret r j → Inv B head tail cap r → j ≤ data.length →
      (signedScan B head tail).Steps (p.pending B ++ data.drop iret) out
        (r.pending B ++ data.drop j) →
      r.Goes B data j → r.turn B data j ≠ none →
      r.HeadposSurvives B data j ∧ r.DatalenSurvives B data j) :
    Inv B head tail cap q ∧ i ≤ data.length ∧
      ∃ out, (signedScan B head tail).Steps (p.pending B ++ data.drop iret) out
        (q.pending B ++ data.drop i) := by
  induction h with
  | start => exact ⟨hp, hi, [], .refl _⟩
  | next h hg ht ih =>
    obtain ⟨hinv, hj, out, hs⟩ := ih
    obtain ⟨hfit, hlen⟩ := hok _ _ _ h hinv hj hs hg (by rw [ht]; simp)
    rcases turn_spec hinv hcap hj hd hg (hroom.of_steps hs) hfit hlen with
      ⟨p', i', o, ht', hinv', hi', hs', -⟩ | ⟨p', ht', -⟩
    · rw [ht] at ht'
      cases ht'
      exact ⟨hinv', hi', _, hs.trans hs'⟩
    · rw [ht] at ht'
      cases ht'

/-- Where the loop ends, what is held has no packet in it. -/
theorem run_pending (h : Inv B head tail cap p) (hg : ¬ p.Goes B data i) :
    ((signedScan B head tail).run (p.pending B)).1 = [] := by
  cases hp : p.parsetype with
  | head =>
    rw [Decoder.run_of_decide_none ((h.waiting hp).decide_pending h.toBuffers hp)]
  | nothing =>
    refine run_fst_of_length_lt ?_
    rw [h.toBuffers.length_pending hp]
    simp only [Goes, not_or, not_le] at hg
    exact hg.2

/-- **The loop** ends, within as many iterations as there is work. -/
theorem recvLoop_spec (hcap : cap ≤ maxCap B) (hd : 2 * data.length < B.sizeT.modulus) (k : ℕ)
    (hp : Inv B head tail cap p) (hi : iret ≤ data.length) (hk : p.work B data iret < k)
    (hroom : RoomFor B head tail cap (p.pending B ++ data.drop iret))
    (hok : ∀ r j, LoopHead B data p iret r j → r.Goes B data j →
      r.HeadposSurvives B data j ∧ r.DatalenSurvives B data j) :
    ∃ p' out, p.recvLoop B data k iret = .done p' out ∧ Inv B head tail cap p' ∧
      (signedScan B head tail).Steps (p.pending B ++ data.drop iret) (out.map Delivery.packet)
        (p'.pending B) ∧
      ((signedScan B head tail).run (p'.pending B)).1 = [] := by
  induction k generalizing p iret with
  | zero => omega
  | succ k ih =>
    rw [recvLoop]
    by_cases hg : p.Goes B data iret
    · rw [if_pos hg]
      obtain ⟨hfit, hlen⟩ := hok p iret .start hg
      rcases turn_spec hp hcap hi hd hg hroom hfit hlen with
        ⟨p', i', o, ht, hinv, hi', hs, hlt⟩ | ⟨p', ht, hinv, hs, hdec⟩
      · obtain ⟨q, out, hr, hq, hs', hrun⟩ := ih hinv hi' (by omega) (hroom.of_steps hs)
          fun r j h hg' => hok r j (h.head hg ht) hg'
        refine ⟨q, o.toList ++ out, ?_, hq, ?_, hrun⟩
        · simp only [ht, hr, Outcome.emit]
        · rw [List.map_append]
          exact hs.trans hs'
      · refine ⟨p', [], by simp only [ht], hinv, hs, ?_⟩
        rw [Decoder.run_of_decide_none hdec]
    · rw [if_neg hg]
      refine ⟨p, [], rfl, hp, ?_, run_pending hp hg⟩
      have hrest : data.drop iret = [] := by
        simp only [Goes, not_or, not_lt] at hg
        exact List.drop_eq_nil_of_le hg.1
      rw [hrest, List.append_nil]
      exact .refl _

/-- The bytes a parser holds at a loop head. -/
theorem length_pending_le (h : Inv B head tail cap p) :
    (p.pending B).length ≤ p.truepacketlen + p.getdatalen + B.headLen + 1 := by
  cases hp : p.parsetype with
  | head =>
    have := (h.waiting hp).length_headerBytes h.toBuffers
    simp only [pending, hp, List.length_append, List.length_take]
    omega
  | nothing =>
    rw [h.toBuffers.length_pending hp]
    omega

/-- **A call** returns. -/
theorem recvdata_spec (hcap : cap ≤ maxCap B) (c : Chunk B) (hp : Inv B head tail cap p)
    (hroom : RoomFor B head tail cap (p.pending B ++ c.bytes))
    (hok : ∀ r j, LoopHead B c.bytes p 0 r j → r.Goes B c.bytes j →
      r.HeadposSurvives B c.bytes j ∧ r.DatalenSurvives B c.bytes j) :
    ∃ p' out, p.recvdata B c.bytes = .done p' out ∧ Inv B head tail cap p' ∧
      (signedScan B head tail).Steps (p.pending B ++ c.bytes) (out.map Delivery.packet)
        (p'.pending B) ∧
      ((signedScan B head tail).run (p'.pending B)).1 = [] := by
  have hl := length_pending_le hp
  have := recvLoop_spec hcap c.size
    (p.truepacketlen + p.getdatalen + B.headLen + 2 * c.bytes.length + 2) hp (Nat.zero_le _)
    (by unfold work; omega) (by simpa using hroom) hok
  simpa only [recvdata, List.drop_zero] using this

/-! ## Sequences of calls -/

/-- The invariant at the loop heads of a sequence of calls, and the decisions taken so far. The
conditions may use what is known of a loop head, and that its iteration is no fault. -/
theorem Visit.inv {cs : List (Chunk B)} {d : Chunk B} (h : Visit B p cs d q i)
    (hp : Inv B head tail cap p) (hcap : cap ≤ maxCap B)
    (hroom : RoomFor B head tail cap (p.pending B ++ streamOf cs))
    (hok : ∀ d r j out rest, Visit B p cs d r j → Inv B head tail cap r → j ≤ d.bytes.length →
      (signedScan B head tail).Steps (p.pending B ++ streamOf cs) out
        (r.pending B ++ d.bytes.drop j ++ rest) →
      r.Goes B d.bytes j → r.turn B d.bytes j ≠ none →
      r.HeadposSurvives B d.bytes j ∧ r.DatalenSurvives B d.bytes j) :
    Inv B head tail cap q ∧ i ≤ d.bytes.length ∧
      ∃ out rest, (signedScan B head tail).Steps (p.pending B ++ streamOf cs) out
        (q.pending B ++ d.bytes.drop i ++ rest) := by
  -- what a loop head of the first call knows
  have first : ∀ {p₀ : CPacketSync} {c : Chunk B} {cs : List (Chunk B)},
      Inv B head tail cap p₀ → RoomFor B head tail cap (p₀.pending B ++ streamOf (c :: cs)) →
      (∀ d r j out rest, Visit B p₀ (c :: cs) d r j → Inv B head tail cap r →
        j ≤ d.bytes.length →
        (signedScan B head tail).Steps (p₀.pending B ++ streamOf (c :: cs)) out
          (r.pending B ++ d.bytes.drop j ++ rest) →
        r.Goes B d.bytes j → r.turn B d.bytes j ≠ none →
        r.HeadposSurvives B d.bytes j ∧ r.DatalenSurvives B d.bytes j) →
      ∀ r j, LoopHead B c.bytes p₀ 0 r j → Inv B head tail cap r ∧ j ≤ c.bytes.length ∧
        ∃ out, (signedScan B head tail).Steps (p₀.pending B ++ c.bytes) out
          (r.pending B ++ c.bytes.drop j) := by
    intro p₀ c cs hp₀ hroom₀ hok₀ r j hr
    rw [streamOf_cons, ← List.append_assoc] at hroom₀ hok₀
    have := hr.inv hp₀ hcap (Nat.zero_le _) c.size (by simpa using hroom₀.of_append)
      (fun r' j' out hr' hinv hj hs hg ht =>
        hok₀ c r' j' out (streamOf cs) (.now hr') hinv hj (by simpa using hs.append _) hg ht)
    simpa using this
  induction h with
  | @now p q c cs i h =>
    obtain ⟨hinv, hi, out, hs⟩ := first hp hroom hok _ _ h
    refine ⟨hinv, hi, out, streamOf cs, ?_⟩
    rw [streamOf_cons, ← List.append_assoc]
    exact hs.append _
  | @later p p' q c d cs i out₁ hc h ih =>
    have hcall := recvdata_spec hcap c hp
      (by rw [streamOf_cons, ← List.append_assoc] at hroom; exact hroom.of_append)
      (fun r j hr hg => by
        obtain ⟨hinv, hj, out, hs⟩ := first hp hroom hok r j hr
        refine hok c r j out (streamOf cs) (.now hr) hinv hj ?_ hg (hr.turn_ne_none hc hg)
        rw [streamOf_cons, ← List.append_assoc]
        exact hs.append _)
    obtain ⟨p'', out', hc', hinv, hs, -⟩ := hcall
    rw [hc] at hc'
    cases hc'
    have hs' := hs.append (streamOf cs)
    rw [streamOf_cons, ← List.append_assoc] at hroom hok ⊢
    obtain ⟨hq, hi, out₂, rest, hs₂⟩ := ih hinv (hroom.of_steps hs')
      (fun d' r j out rest hr hinv' hj hsteps hg ht =>
        hok d' r j _ rest (.later hc hr) hinv' hj (hs'.trans hsteps) hg ht)
    exact ⟨hq, hi, _, rest, hs'.trans hs₂⟩

/-- **A sequence of calls** returns with all decisions of the reference parser on packets taken. -/
theorem feed_spec (hcap : cap ≤ maxCap B) (cs : List (Chunk B)) (hp : Inv B head tail cap p)
    (hroom : RoomFor B head tail cap (p.pending B ++ streamOf cs))
    (hrun : ((signedScan B head tail).run (p.pending B)).1 = [])
    (hok : ∀ d r j, Visit B p cs d r j → r.Goes B d.bytes j →
      r.HeadposSurvives B d.bytes j ∧ r.DatalenSurvives B d.bytes j) :
    ∃ q out, p.feed B cs = .done q out ∧ Inv B head tail cap q ∧
      (signedScan B head tail).Steps (p.pending B ++ streamOf cs) (out.map Delivery.packet)
        (q.pending B) ∧
      ((signedScan B head tail).run (q.pending B)).1 = [] := by
  induction cs generalizing p with
  | nil => exact ⟨p, [], rfl, hp, by simpa using Decoder.Steps.refl _, hrun⟩
  | cons c cs ih =>
    rw [streamOf_cons, ← List.append_assoc] at hroom ⊢
    obtain ⟨p', out₁, hc, hinv, hs, hrun'⟩ := recvdata_spec hcap c hp hroom.of_append
      fun r j hr hg => hok c r j (.now hr) hg
    have hs' := hs.append (streamOf cs)
    obtain ⟨q, out₂, hf, hq, hs₂, hrun''⟩ := ih hinv (hroom.of_steps hs') hrun'
      fun d r j hr hg => hok d r j (.later hc hr) hg
    refine ⟨q, out₁ ++ out₂, feed_cons_of_done hc hf, hq, ?_, hrun''⟩
    rw [List.map_append]
    exact hs'.trans hs₂

/-- Bounded lengths in the stream are bounded lengths in the searches. -/
theorem datalenSurvives_of_everywhere (h : Inv B head tail cap p) {rest : List Byte}
    (hlen : (signedScan B head tail).Everywhere (LengthAtMost B head tail (2 ^ 31 - 2))
      (p.pending B ++ data.drop iret ++ rest)) : p.DatalenSurvives B data iret := by
  intro hp i hfind
  have hb := h.toBuffers
  -- the window and the bytes that do not fit into it are the stream
  obtain ⟨more, hmore⟩ : ∃ more, p.pending B ++ data.drop iret ++ rest =
      p.window data iret ++ more := by
    simp only [pending, hp, window]
    exact ⟨_, by rw [← List.append_assoc, List.take_append_drop]⟩
  rw [hmore] at hlen
  rw [hb.head_eq] at hfind
  obtain ⟨-, -, hskip⟩ := findIdx_head hfind
  have hs : (signedScan B head tail).Steps _ [] _ := steps_skip hskip
    ((p.window data iret).drop i ++ more)
  rw [← List.append_assoc, List.take_append_drop] at hs
  rw [hb.head_eq, hb.tail_eq]
  exact ((hlen.of_steps hs).here).of_append

/-- The packets of a sequence of calls are those of one run on the whole stream. -/
theorem map_packet_eq_run {cs : List (Chunk B)} {out : List Delivery}
    (hs : (signedScan B head tail).Steps (p.pending B ++ streamOf cs) (out.map Delivery.packet)
      (q.pending B)) (hrun : ((signedScan B head tail).run (q.pending B)).1 = []) :
    out.map Delivery.packet = ((signedScan B head tail).run (p.pending B ++ streamOf cs)).1 := by
  rw [hs.run_eq, hrun, List.append_nil]

/-- On a stream of bounded lengths the indices of the head bytes are the only condition. -/
theorem feed_of_headposSurvives (hcap : cap ≤ maxCap B) (cs : List (Chunk B))
    (hp : Inv B head tail cap p) (hroom : RoomFor B head tail cap (p.pending B ++ streamOf cs))
    (hrun : ((signedScan B head tail).run (p.pending B)).1 = [])
    (hlen : (signedScan B head tail).Everywhere (LengthAtMost B head tail (2 ^ 31 - 2))
      (p.pending B ++ streamOf cs))
    (hfit : ∀ d r j, Visit B p cs d r j → Inv B head tail cap r → r.Goes B d.bytes j →
      r.HeadposSurvives B d.bytes j) :
    ∃ q out, p.feed B cs = .done q out ∧ Inv B head tail cap q ∧
      (signedScan B head tail).Steps (p.pending B ++ streamOf cs) (out.map Delivery.packet)
        (q.pending B) ∧
      ((signedScan B head tail).run (q.pending B)).1 = [] := by
  refine feed_spec hcap cs hp hroom hrun fun d r j hv hg => ?_
  obtain ⟨hr, -, out, rest, hs⟩ := hv.inv hp hcap hroom
    fun d r j out rest hv hr _ hs hg _ =>
      ⟨hfit d r j hv hr hg, datalenSurvives_of_everywhere hr (hlen.of_steps hs)⟩
  exact ⟨hfit d r j hv hr hg, datalenSurvives_of_everywhere hr (hlen.of_steps hs)⟩

/-- Calls that all return pass no index that does not survive. -/
theorem headposSurvives_of_feed (hcap : cap ≤ maxCap B) {cs : List (Chunk B)} {out : List Delivery}
    (hp : Inv B head tail cap p) (hroom : RoomFor B head tail cap (p.pending B ++ streamOf cs))
    (hlen : (signedScan B head tail).Everywhere (LengthAtMost B head tail (2 ^ 31 - 2))
      (p.pending B ++ streamOf cs))
    (hf : p.feed B cs = .done q out) {d : Chunk B} {r : CPacketSync} {j : ℕ}
    (hv : Visit B p cs d r j) (hg : r.Goes B d.bytes j) : r.HeadposSurvives B d.bytes j := by
  have survives : ∀ {d : Chunk B} {r : CPacketSync} {j : ℕ}, Inv B head tail cap r →
      j ≤ d.bytes.length → r.turn B d.bytes j ≠ none → r.HeadposSurvives B d.bytes j := by
    intro d r j hr hj ht
    by_contra hfit
    exact ht (turn_fault hr hcap hj d.size hfit)
  obtain ⟨hr, hj, -⟩ := hv.inv hp hcap hroom fun d r j out rest _ hr hj hs _ ht =>
    ⟨survives hr hj ht, datalenSurvives_of_everywhere hr (hlen.of_steps hs)⟩
  exact survives hr hj (hv.turn_ne_none hf hg)

/-- A read buffer of at most `2 ^ 31` bytes has no index that an `int` cannot hold. -/
theorem headposSurvives_of_cap (h : Inv B head tail cap p) (hcap : cap ≤ 2 ^ 31) :
    p.HeadposSurvives B data iret := by
  intro _
  have hlen := h.toBuffers.len_le
  refine .of_le ?_
  rw [window, List.length_take]
  omega

/-! ## The fresh parser -/

theorem inv_fresh (B : Build) (u : Uninit) (head tail : Byte) (hcap : bufferSize ≤ cap) :
    Inv B head tail cap (fresh u head tail) := by
  have hlen : UvBuf.len ⟨u.readdata.toList⟩ = bufferSize := u.readdata.toList_length
  refine .of_nothing ⟨rfl, rfl, rfl, ?_, ?_, Nat.zero_le _⟩ rfl
  · exact hlen.ge
  · exact hlen.le.trans hcap

@[simp] theorem pending_fresh (B : Build) (u : Uninit) (head tail : Byte) :
    (fresh u head tail).pending B = [] := rfl

/-- The first search sees as much of the input as fits into the read buffer. -/
theorem window_fresh (u : Uninit) (head tail : Byte) (data : List Byte) :
    (fresh u head tail).window data 0 = data.take bufferSize := by
  have hlen : (fresh u head tail).threadReaddata.len = bufferSize := u.readdata.toList_length
  rw [window, hlen]
  rfl

theorem bufferSize_le_maxCap (B : Build) : bufferSize ≤ maxCap B := by
  rw [bufferSize_eq]
  unfold maxCap
  omega

theorem le_maxCap (B : Build) (hcap : cap ≤ 2 ^ 31) : cap ≤ maxCap B := by
  have := headLen_ge B
  unfold maxCap
  omega

/-- On a stream of bounded lengths whose rejected frames leave the read buffer below `2 ^ 31` bytes,
everything survives its conversion. -/
theorem Visit.survives (hcap : cap ≤ 2 ^ 31) {cs : List (Chunk B)} (hp : Inv B head tail cap p)
    (hroom : RoomFor B head tail cap (p.pending B ++ streamOf cs))
    (hlen : (signedScan B head tail).Everywhere (LengthAtMost B head tail (2 ^ 31 - 2))
      (p.pending B ++ streamOf cs)) {d : Chunk B} (hv : Visit B p cs d q i) :
    q.HeadposSurvives B d.bytes i ∧ q.DatalenSurvives B d.bytes i := by
  obtain ⟨hr, -, out, rest, hs⟩ := hv.inv hp (le_maxCap B hcap) hroom
    fun d r j out rest _ hr _ hs _ _ =>
      ⟨headposSurvives_of_cap hr hcap, datalenSurvives_of_everywhere hr (hlen.of_steps hs)⟩
  exact ⟨headposSurvives_of_cap hr hcap, datalenSurvives_of_everywhere hr (hlen.of_steps hs)⟩

/-- On such a stream the calls return. -/
theorem feed_of_bounded (hcap : cap ≤ 2 ^ 31) (cs : List (Chunk B)) (hp : Inv B head tail cap p)
    (hroom : RoomFor B head tail cap (p.pending B ++ streamOf cs))
    (hrun : ((signedScan B head tail).run (p.pending B)).1 = [])
    (hlen : (signedScan B head tail).Everywhere (LengthAtMost B head tail (2 ^ 31 - 2))
      (p.pending B ++ streamOf cs)) :
    ∃ q out, p.feed B cs = .done q out ∧ Inv B head tail cap q ∧
      (signedScan B head tail).Steps (p.pending B ++ streamOf cs) (out.map Delivery.packet)
        (q.pending B) ∧
      ((signedScan B head tail).run (q.pending B)).1 = [] :=
  feed_spec (le_maxCap B hcap) cs hp hroom hrun fun _ _ _ hv _ => hv.survives hcap hp hroom hlen

/-- After each call, the packets delivered so far are those the reference parser delivers on the
bytes received so far. -/
def Refines (B : Build) (head tail : Byte) (p : CPacketSync) (cs : List (Chunk B)) : Prop :=
  ∀ pre, pre <+: cs → ∃ q out, p.feed B pre = .done q out ∧
    out.map Delivery.packet = ((reference B head tail).run (streamOf pre)).1

end CPacketSync

end SimpleUv
