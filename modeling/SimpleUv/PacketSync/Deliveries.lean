import SimpleUv.PacketSync.Calls

/-!
# What a delivery looks like

Facts about every call of the packet callback, in whatever state the parser is and whatever it is fed:
its header was read from characters, so each integer field has passed through 32 bits; its buffer has
the announced data and a zero behind it; and the tail of the parser is below `0x80`, since the last byte
of a frame is compared as a signed `char` (`feed_sound`).
-/

namespace SimpleUv

open Foundations

namespace CPacketSync

variable {B : Build} {p q : CPacketSync} {data : List Byte} {iret : ℕ} {o : Option Delivery}

/-- The packet was read from characters. -/
def Decoded (B : Build) (packet : NetPacket) : Prop := ∃ chars, packet = charToNetPacket B chars

/-- What holds of a delivery by a parser with the given tail. -/
structure Sound (B : Build) (tail : Byte) (d : Delivery) : Prop where
  decoded : Decoded B d.packethead
  terminated : d.packetdata[d.packethead.datalen]? = some 0
  tail_lt : tail.toNat < 128

/-- The parser keeps its tail, and the header of a frame was read from characters. -/
structure Keeping (B : Build) (tail : Byte) (p : CPacketSync) : Prop where
  tail_eq : p.tail = tail
  decoded : p.parsetype = .head → Decoded B p.theNexPacket

/-- Every integer field passed through 32 bits. -/
theorem Decoded.truncate_eq {packet : NetPacket} (h : Decoded B packet) :
    packet.truncate = packet := by
  obtain ⟨chars, rfl⟩ := h
  exact NetPacket.truncate_eq (BitVec.isLt _) (BitVec.isLt _) (BitVec.isLt _) (BitVec.isLt _)

theorem topUp_keeps {i : ℕ} (h : p.topUp B data iret = some (q, i)) :
    q.tail = p.tail ∧ q.parsetype = p.parsetype := by
  simp only [topUp] at h
  split_ifs at h
  all_goals
    obtain ⟨src, -, h⟩ := Option.bind_eq_some_iff.1 h
    obtain ⟨rd, -, h⟩ := Option.bind_eq_some_iff.1 h
    simp only [Option.some.injEq, Prod.mk.injEq] at h
    obtain ⟨rfl, -⟩ := h
    exact ⟨rfl, rfl⟩

theorem startFrame_keeps (h : p.startFrame B = some q) :
    q.tail = p.tail ∧ q.theNexPacket = p.theNexPacket := by
  unfold startFrame at h
  extract_lets need pd got p' at h
  split_ifs at h
  · obtain ⟨src, -, h⟩ := Option.bind_eq_some_iff.1 h
    obtain ⟨pd, -, h⟩ := Option.bind_eq_some_iff.1 h
    simp only [Option.some.injEq] at h
    subst h
    exact ⟨rfl, rfl⟩
  · simp only [Option.some.injEq] at h
    subst h
    exact ⟨rfl, rfl⟩

/-- What holds of the result of a search. -/
def Found.Keeps (B : Build) (tail : Byte) : Found → Prop
  | .again p => Keeping B tail p
  | .frame p => p.tail = tail ∧ Decoded B p.theNexPacket

theorem Keeping.of_nothing {tail : Byte} (ht : q.tail = tail) (hq : q.parsetype = .nothing) :
    Keeping B tail q :=
  ⟨ht, fun hhead => by rw [hq] at hhead; cases hhead⟩

/-- A search keeps the tail; a frame it finds has a header that was read from the buffer. -/
theorem readHeader_keeping {tail : Byte} (h : p.tail = tail) (hp : p.parsetype = .nothing) {i : ℕ}
    {found : Found} (hr : p.readHeader B i = some found) : found.Keeps B tail := by
  unfold readHeader at hr
  extract_lets headpos p' n at hr
  split_ifs at hr
  · obtain ⟨rd, -, hr⟩ := Option.bind_eq_some_iff.1 hr
    simp only [Option.some.injEq] at hr
    subst hr
    exact Keeping.of_nothing h hp
  · simp only [Option.some.injEq] at hr
    subst hr
    show Keeping B tail p'
    exact Keeping.of_nothing h hp
  · rw [Option.bind_eq_bind, Option.bind_eq_some_iff] at hr
    obtain ⟨chars, -, hr⟩ := hr
    extract_lets packet p'' at hr
    split_ifs at hr
    · obtain ⟨rd, -, hr⟩ := Option.bind_eq_some_iff.1 hr
      simp only [Option.some.injEq] at hr
      subst hr
      exact Keeping.of_nothing h hp
    · obtain ⟨q, hstart, hr⟩ := Option.bind_eq_some_iff.1 hr
      simp only [Option.some.injEq] at hr
      subst hr
      obtain ⟨htail, hpacket⟩ := startFrame_keeps hstart
      exact ⟨htail.trans h, chars, hpacket⟩

theorem searchHead_keeping {tail : Byte} (h : p.tail = tail) (hp : p.parsetype = .nothing)
    {found : Found} (hs : p.searchHead B = some found) : found.Keeps B tail := by
  obtain ⟨window, -, hs⟩ := Option.bind_eq_some_iff.1 hs
  split at hs
  · simp only [Option.some.injEq] at hs
    subst hs
    exact Keeping.of_nothing h hp
  · exact readHeader_keeping h hp hs

theorem fillBody_keeps {next : Option ℕ} (h : p.fillBody B data iret = some (q, next)) :
    q.tail = p.tail ∧ q.theNexPacket = p.theNexPacket := by
  simp only [fillBody] at h
  split_ifs at h
  · obtain ⟨src, -, h⟩ := Option.bind_eq_some_iff.1 h
    obtain ⟨pd, -, h⟩ := Option.bind_eq_some_iff.1 h
    simp only [Option.some.injEq, Prod.mk.injEq] at h
    obtain ⟨rfl, -⟩ := h
    exact ⟨rfl, rfl⟩
  · obtain ⟨src, -, h⟩ := Option.bind_eq_some_iff.1 h
    obtain ⟨pd, -, h⟩ := Option.bind_eq_some_iff.1 h
    simp only [Option.some.injEq, Prod.mk.injEq] at h
    obtain ⟨rfl, -⟩ := h
    exact ⟨rfl, rfl⟩
  · simp only [Option.some.injEq, Prod.mk.injEq] at h
    obtain ⟨rfl, -⟩ := h
    exact ⟨rfl, rfl⟩

theorem rejectFrame_keeps (h : p.rejectFrame B = some q) :
    q.tail = p.tail ∧ q.parsetype = .nothing := by
  unfold rejectFrame at h
  extract_lets size need buf at h
  split_ifs at h
  · obtain ⟨rd, -, h⟩ := Option.bind_eq_some_iff.1 h
    simp only [Option.some.injEq] at h
    subst h
    exact ⟨rfl, rfl⟩
  · obtain ⟨rd, -, h⟩ := Option.bind_eq_some_iff.1 h
    obtain ⟨src, -, h⟩ := Option.bind_eq_some_iff.1 h
    obtain ⟨rd', -, h⟩ := Option.bind_eq_some_iff.1 h
    simp only [Option.some.injEq] at h
    subst h
    exact ⟨rfl, rfl⟩

theorem store_getElem {buf pd : UvBuf} {n : ℕ} {b : Byte} (h : buf.store n [b] = some pd) :
    pd.base[n]? = some b := by
  unfold UvBuf.store at h
  split_ifs at h with hdec
  cases h
  simp only [List.length_singleton, UvBuf.len] at hdec
  show (overwrite buf.base n [b])[n]? = some b
  have ht : (buf.base.take n).length = n := by
    rw [List.length_take]
    omega
  rw [overwrite, List.append_assoc, List.getElem?_append_right (by omega), ht, Nat.sub_self]
  rfl

/-- The callback is given the header, and a buffer with a zero behind the data. -/
theorem acceptFrame_keeps (h : p.acceptFrame B = some (q, o)) :
    q.tail = p.tail ∧ q.parsetype = .nothing ∧ ∀ d, o = some d → d.packethead = p.theNexPacket ∧
      d.packetdata[p.theNexPacket.datalen]? = some 0 := by
  unfold acceptFrame at h
  extract_lets size left rest at h
  obtain ⟨rd, hrest⟩ : ∃ rd, rest rd = some (q, o) := by
    split_ifs at h
    · obtain ⟨rd, -, h⟩ := Option.bind_eq_some_iff.1 h
      exact ⟨rd, h⟩
    · exact ⟨p.threadReaddata, h⟩
  unfold rest at hrest
  extract_lets r at hrest
  split_ifs at hrest
  · obtain ⟨pd, hstore, hrest⟩ := Option.bind_eq_some_iff.1 hrest
    simp only [Option.some.injEq, Prod.mk.injEq] at hrest
    obtain ⟨rfl, rfl⟩ := hrest
    refine ⟨rfl, rfl, fun d hd => ?_⟩
    cases hd
    exact ⟨rfl, store_getElem hstore⟩
  · simp only [Option.some.injEq, Prod.mk.injEq] at hrest
    obtain ⟨rfl, rfl⟩ := hrest
    exact ⟨rfl, rfl, nofun⟩

/-- A frame that passes the checks ends with the tail, which is then a `char`. -/
theorem checkFrame_sound {tail : Byte} (h : p.tail = tail) (hdec : Decoded B p.theNexPacket)
    (hc : p.checkFrame B = some (q, o)) : Keeping B tail q ∧ ∀ d, o = some d → Sound B tail d := by
  have hreject : ∀ {r r' : CPacketSync}, r.tail = tail → r.rejectFrame B = some r' →
      Keeping B tail r' := fun hr hrej =>
    have ⟨ht, hn⟩ := rejectFrame_keeps hrej
    .of_nothing (ht.trans hr) hn
  unfold checkFrame at hc
  extract_lets datalen at hc
  obtain ⟨last, -, hc⟩ := Option.bind_eq_some_iff.1 hc
  by_cases hlast : last.map charToInt ≠ [(p.tail.toNat : ℤ)]
  · rw [if_pos hlast] at hc
    obtain ⟨r, hrej, hc⟩ := Option.bind_eq_some_iff.1 hc
    simp only [Option.some.injEq, Prod.mk.injEq] at hc
    obtain ⟨rfl, rfl⟩ := hc
    exact ⟨hreject h hrej, nofun⟩
  rw [if_neg hlast] at hc
  obtain ⟨bytes, -, hc⟩ := Option.bind_eq_some_iff.1 hc
  extract_lets md5str p' at hc
  by_cases hcheck : p'.theNexPacket.check ≠ md5str
  · rw [if_pos hcheck] at hc
    obtain ⟨r, hrej, hc⟩ := Option.bind_eq_some_iff.1 hc
    simp only [Option.some.injEq, Prod.mk.injEq] at hc
    obtain ⟨rfl, rfl⟩ := hc
    exact ⟨hreject (by exact h) hrej, nofun⟩
  rw [if_neg hcheck] at hc
  obtain ⟨htail, hn, hd⟩ := acceptFrame_keeps hc
  refine ⟨.of_nothing (htail.trans h) hn, fun d hdo => ?_⟩
  obtain ⟨hhead, hzero⟩ := hd d hdo
  -- the comparison promotes the last byte as a signed character
  have hlt : (p.tail.toNat : ℤ) < 128 := by
    obtain ⟨b, -, hb⟩ := List.mem_map.1 (show (p.tail.toNat : ℤ) ∈ last.map charToInt by
      rw [not_not.1 hlast]
      exact List.mem_singleton_self _)
    rw [← hb]
    exact charToInt_lt b
  constructor
  · rw [hhead]
    exact hdec
  · rw [hhead]
    exact hzero
  · rw [← h]
    omega

/-- What holds of the result of an iteration. -/
def Turn.Sound (B : Build) (tail : Byte) : Turn → Prop
  | .next p _ o => Keeping B tail p ∧ ∀ d, o = some d → CPacketSync.Sound B tail d
  | .ret p => Keeping B tail p

theorem turnBody_sound {tail : Byte} (h : p.tail = tail) (hdec : Decoded B p.theNexPacket)
    {t : Turn} (ht : p.turnBody B data iret = some t) : t.Sound B tail := by
  obtain ⟨⟨r, next⟩, hfill, ht⟩ := Option.bind_eq_some_iff.1 ht
  obtain ⟨htail, hpacket⟩ := fillBody_keeps hfill
  have hrdec : Decoded B r.theNexPacket := by
    rw [hpacket]
    exact hdec
  cases next with
  | none =>
    cases ht
    exact ⟨htail.trans h, fun _ => hrdec⟩
  | some i =>
    obtain ⟨⟨r', o⟩, hcheck, ht⟩ := Option.bind_eq_some_iff.1 ht
    cases ht
    exact checkFrame_sound (htail.trans h) hrdec hcheck

/-- **What one iteration of the loop keeps.** -/
theorem turn_sound {tail : Byte} (h : Keeping B tail p) {t : Turn}
    (ht : p.turn B data iret = some t) : t.Sound B tail := by
  unfold turn at ht
  split at ht
  · next hp => exact turnBody_sound h.tail_eq (h.decoded hp) ht
  · next hp =>
    obtain ⟨⟨r, i⟩, htop, ht⟩ := Option.bind_eq_some_iff.1 ht
    obtain ⟨htail, hnothing⟩ := topUp_keeps htop
    obtain ⟨found, hfound, ht⟩ := Option.bind_eq_some_iff.1 ht
    have hkeep := searchHead_keeping (htail.trans h.tail_eq) (hnothing.trans hp) hfound
    cases found with
    | again r' =>
      cases ht
      exact ⟨hkeep, nofun⟩
    | frame r' => exact turnBody_sound hkeep.1 hkeep.2 ht

theorem recvLoop_sound {tail : Byte} (h : Keeping B tail p) {k : ℕ} {out : List Delivery}
    (hr : p.recvLoop B data k iret = .done q out) :
    Keeping B tail q ∧ ∀ d ∈ out, Sound B tail d := by
  induction k generalizing p iret out with
  | zero => cases hr
  | succ k ih =>
    rw [recvLoop] at hr
    split_ifs at hr with hg
    · cases ht : p.turn B data iret with
      | none =>
        rw [ht] at hr
        cases hr
      | some t =>
        have hsound := turn_sound h ht
        rw [ht] at hr
        cases t with
        | ret r =>
          cases hr
          exact ⟨hsound, List.forall_mem_nil _⟩
        | next r i o =>
          obtain ⟨out', hrest, rfl⟩ := Outcome.emit_eq_done hr
          obtain ⟨hq, hout⟩ := ih hsound.1 hrest
          refine ⟨hq, fun d hd => ?_⟩
          rcases List.mem_append.1 hd with hd | hd
          · exact hsound.2 d (Option.mem_toList.1 hd)
          · exact hout d hd
    · cases hr
      exact ⟨h, List.forall_mem_nil _⟩

/-- **Every delivery of every run**, whatever the parser is fed. -/
theorem feed_sound {tail : Byte} (h : Keeping B tail p) {cs : List (Chunk B)} {out : List Delivery}
    (hf : p.feed B cs = .done q out) : ∀ d ∈ out, Sound B tail d := by
  induction cs generalizing p out with
  | nil =>
    cases hf
    exact nofun
  | cons c cs ih =>
    obtain ⟨p', out₁, out₂, hc, hrest, rfl⟩ := feed_cons_done hf
    obtain ⟨hp', h₁⟩ := recvLoop_sound h hc
    intro d hd
    rcases List.mem_append.1 hd with hd | hd
    · exact h₁ d hd
    · exact ih hp' hrest d hd

theorem keeping_fresh (u : Uninit) (head tail : Byte) : Keeping B tail (fresh u head tail) :=
  .of_nothing rfl rfl

end CPacketSync

end SimpleUv
