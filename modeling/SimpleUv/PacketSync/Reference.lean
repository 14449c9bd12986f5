import SimpleUv.PacketSync.Parser
import SimpleUv.Foundations.StreamDecoder

/-!
# The reference parser

What the frame parser is for, on one unbounded byte sequence: skip to a head byte, wait for a
header; a header with other delimiters is dropped with its head byte; wait for data and tail; a
frame with a wrong tail or checksum loses its head byte only; a good frame is delivered. Its
decisions are stable under more input, so it is a `Decoder`, and the theory of `StreamDecoder`
says how it behaves on a stream that arrives in pieces.
-/

namespace SimpleUv

open Foundations

/-- The checksum of a payload: all zero for the empty one. -/
def checksum (B : Build) (payload : List Byte) : Digest :=
  if payload = [] then .replicate 16 0 else B.md5 payload

section Reference

variable (B : Build) (head tail : Byte)

/-- The header of the frame that starts at the first byte, when it is there and accepted. -/
def candidate : List Byte → Option NetPacket
  | [] => none
  | b :: xs =>
    if b = head ∧ B.headLen ≤ xs.length ∧ (charToNetPacket B xs).header = head ∧
        (charToNetPacket B xs).tail = tail then
      some (charToNetPacket B xs)
    else none

/-- The decisions of the parser; `last` is the test of the last byte of a frame. -/
def scanDecide (last : Byte → Bool) : List Byte → Option (ℕ × Option Packet)
  | [] => none
  | b :: xs =>
    if b ≠ head then some (1, none)
    else if xs.length < B.headLen then none
    else
      let packet := charToNetPacket B xs
      if packet.header ≠ head ∨ packet.tail ≠ tail then some (1, none)
      else if xs.length < B.headLen + (packet.datalen + 1) then none
      else
        let payload := slice xs B.headLen packet.datalen
        if ¬ last (xs.getD (B.headLen + packet.datalen) 0) ∨ packet.check ≠ checksum B payload then
          some (1, none)
        else some (1 + B.headLen + (packet.datalen + 1), some ⟨packet, payload⟩)

variable {B head tail} {last : Byte → Bool}

theorem charToNetPacket_append_of_headLen {xs : List Byte} (h : B.headLen ≤ xs.length)
    (ys : List Byte) : charToNetPacket B (xs ++ ys) = charToNetPacket B xs :=
  charToNetPacket_append B ((headLen_ge B).trans h) ys

theorem candidate_head {xs : List Byte} {h : NetPacket} (hc : candidate B head tail xs = some h) :
    ∃ ys, xs = head :: ys := by
  cases xs with
  | nil => simp [candidate] at hc
  | cons b ys =>
    simp only [candidate, Option.ite_none_right_eq_some] at hc
    exact ⟨ys, by rw [hc.1.1]⟩

theorem candidate_append {xs : List Byte} {h : NetPacket} (hx : candidate B head tail xs = some h)
    (ys : List Byte) : candidate B head tail (xs ++ ys) = some h := by
  cases xs with
  | nil => simp [candidate] at hx
  | cons b xs =>
    simp only [candidate, Option.ite_none_right_eq_some] at hx
    obtain ⟨⟨hb, hl, hh, ht⟩, he⟩ := hx
    simp only [List.cons_append, candidate]
    rw [charToNetPacket_append_of_headLen hl, if_pos ⟨hb, by rw [List.length_append]; omega, hh, ht⟩,
      he]

theorem scanDecide_stable {xs : List Byte} {r : ℕ × Option Packet} (ys : List Byte)
    (h : scanDecide B head tail last xs = some r) :
    scanDecide B head tail last (xs ++ ys) = some r := by
  cases xs with
  | nil => simp [scanDecide] at h
  | cons b xs =>
    simp only [scanDecide] at h
    simp only [List.cons_append, scanDecide]
    split_ifs at h with h₁ h₂ h₃ h₄ h₅
    · rw [if_pos h₁, h]
    all_goals
      have hl : B.headLen ≤ xs.length := by omega
      rw [if_neg h₁, if_neg (by rw [List.length_append]; omega),
        charToNetPacket_append_of_headLen hl]
    · rw [if_pos h₃, h]
    all_goals
      rw [if_neg h₃, if_neg (by rw [List.length_append]; omega),
        slice_append_left (by omega), List.getD_append _ _ _ _ (by omega)]
    · rw [if_pos h₅, h]
    · rw [if_neg h₅, h]

theorem scanDecide_pos {xs : List Byte} {n : ℕ} {o : Option Packet}
    (h : scanDecide B head tail last xs = some (n, o)) : 0 < n ∧ n ≤ xs.length := by
  cases xs with
  | nil => simp [scanDecide] at h
  | cons b xs =>
    simp only [scanDecide] at h
    rw [List.length_cons]
    split_ifs at h <;> simp only [Option.some.injEq, Prod.mk.injEq] at h <;> omega

variable (B head tail) (last : Byte → Bool)

/-- The parser with the test `last` of the last byte. -/
def scan : Decoder Byte Packet where
  decide := scanDecide B head tail last
  pos := scanDecide_pos
  stable := scanDecide_stable

/-- **The reference parser** for the delimiters `head` and `tail`. -/
abbrev reference : Decoder Byte Packet := scan B head tail (· == tail)

/-- The parser with the test of the code: the last byte is a signed `char`, the tail is not. -/
abbrev signedScan : Decoder Byte Packet := scan B head tail fun b => charToInt b == tail.toNat

/-- The accepted headers examined at the first byte announce at most `n` bytes of data. -/
def LengthAtMost (n : ℕ) (xs : List Byte) : Prop :=
  ∀ h, candidate B head tail xs = some h → h.datalen ≤ n

/-- A frame at the first byte that is rejected for its tail or checksum has at most `n` bytes of
data. -/
def RejectAtMost (n : ℕ) (xs : List Byte) : Prop :=
  ∀ h, candidate B head tail xs = some h → (scan B head tail last).decide xs = some (1, none) →
    h.datalen ≤ n

variable {B head tail last}

/-- A tail below `0x80` is the same for both tests. -/
theorem signedTest_eq (htail : tail.toNat < 128) :
    (fun b => charToInt b == (tail.toNat : ℤ)) = (· == tail) := by
  funext b
  rw [← charToInt_of_lt htail, Bool.eq_iff_iff, beq_iff_eq, beq_iff_eq]
  exact BitVec.toInt_inj

theorem signedScan_eq (htail : tail.toNat < 128) :
    signedScan B head tail = reference B head tail := by
  unfold signedScan reference
  rw [signedTest_eq htail]

theorem LengthAtMost.of_append {n : ℕ} {xs ys : List Byte}
    (h : LengthAtMost B head tail n (xs ++ ys)) : LengthAtMost B head tail n xs :=
  fun c hc => h c (candidate_append hc ys)

theorem RejectAtMost.of_append {n : ℕ} {xs ys : List Byte}
    (h : RejectAtMost B head tail last n (xs ++ ys)) : RejectAtMost B head tail last n xs :=
  fun c hc hd => h c (candidate_append hc ys) ((scan B head tail last).stable ys hd)

/-! ## Its decisions -/

theorem decide_skip {b : Byte} (hb : b ≠ head) (xs : List Byte) :
    (scan B head tail last).decide (b :: xs) = some (1, none) := by
  simp [scan, scanDecide, hb]

theorem decide_short {b : Byte} (hb : b = head) {xs : List Byte} (hl : xs.length < B.headLen) :
    (scan B head tail last).decide (b :: xs) = none := by
  simp [scan, scanDecide, hb, hl]

theorem decide_badHeader {xs : List Byte} (hl : B.headLen ≤ xs.length)
    (hh : (charToNetPacket B xs).header ≠ head ∨ (charToNetPacket B xs).tail ≠ tail) :
    (scan B head tail last).decide (head :: xs) = some (1, none) := by
  simp only [scan, scanDecide]
  rw [if_neg (by simp), if_neg (by omega), if_pos hh]

theorem candidate_cons {xs : List Byte} {h : NetPacket}
    (hc : candidate B head tail (head :: xs) = some h) :
    B.headLen ≤ xs.length ∧ h = charToNetPacket B xs ∧ h.header = head ∧ h.tail = tail := by
  simp only [candidate, true_and, Option.ite_none_right_eq_some, Option.some.injEq] at hc
  obtain ⟨⟨hl, hh, ht⟩, rfl⟩ := hc
  exact ⟨hl, rfl, hh, ht⟩

theorem candidate_of_header {xs : List Byte} (hl : B.headLen ≤ xs.length)
    (hh : (charToNetPacket B xs).header = head) (ht : (charToNetPacket B xs).tail = tail) :
    candidate B head tail (head :: xs) = some (charToNetPacket B xs) :=
  if_pos ⟨rfl, hl, hh, ht⟩

/-- A header that is accepted with more input was there when a decision was taken. -/
theorem candidate_of_decide {xs ys : List Byte} {h : NetPacket}
    (hd : (scan B head tail last).decide xs ≠ none)
    (hc : candidate B head tail (xs ++ ys) = some h) : candidate B head tail xs = some h := by
  cases xs with
  | nil => exact absurd rfl hd
  | cons b xs =>
    simp only [List.cons_append, candidate, Option.ite_none_right_eq_some] at hc
    obtain ⟨⟨hb, -, hh, ht⟩, he⟩ := hc
    have hl : B.headLen ≤ xs.length := by
      by_contra hl
      exact hd (decide_short hb (by omega))
    rw [charToNetPacket_append_of_headLen hl] at hh ht he
    exact (if_pos ⟨hb, hl, hh, ht⟩).trans he

/-- The decision on an accepted header whose data and tail are not all there. -/
theorem decide_incomplete {xs : List Byte} {h : NetPacket}
    (hc : candidate B head tail (head :: xs) = some h)
    (hl : xs.length < B.headLen + (h.datalen + 1)) :
    (scan B head tail last).decide (head :: xs) = none := by
  obtain ⟨hl', rfl, hh, ht⟩ := candidate_cons hc
  simp only [scan, scanDecide]
  rw [if_neg (by simp), if_neg (by omega), if_neg (by simp [hh, ht]), if_pos hl]

/-- The decision on a complete frame. -/
theorem decide_complete {xs : List Byte} {h : NetPacket}
    (hc : candidate B head tail (head :: xs) = some h)
    (hl : B.headLen + (h.datalen + 1) ≤ xs.length) :
    (scan B head tail last).decide (head :: xs) =
      if ¬ last (xs.getD (B.headLen + h.datalen) 0) ∨
          h.check ≠ checksum B (slice xs B.headLen h.datalen) then some (1, none)
      else some (1 + B.headLen + (h.datalen + 1), some ⟨h, slice xs B.headLen h.datalen⟩) := by
  obtain ⟨hl', rfl, hh, ht⟩ := candidate_cons hc
  simp only [scan, scanDecide]
  rw [if_neg (by simp), if_neg (by omega), if_neg (by simp [hh, ht]), if_neg (by omega)]

/-- What a decision that delivers has seen: the frame at the first byte. -/
theorem frame_of_decide {xs : List Byte} {n : ℕ} {packet : Packet}
    (h : (scan B head tail last).decide xs = some (n, some packet)) :
    ∃ ys, xs = head :: ys ∧ packet.packethead = charToNetPacket B ys ∧
      B.headLen + (packet.packethead.datalen + 1) ≤ ys.length ∧
      packet.payload = slice ys B.headLen packet.packethead.datalen ∧
      last (ys.getD (B.headLen + packet.packethead.datalen) 0) = true ∧
      packet.packethead.check = checksum B packet.payload := by
  cases xs with
  | nil => simp [scan, scanDecide] at h
  | cons b ys =>
    simp only [scan, scanDecide] at h
    split_ifs at h with h₁ h₂ h₃ h₄ h₅ <;> simp only [Option.some.injEq, Prod.mk.injEq,
      reduceCtorEq, and_false] at h
    obtain ⟨-, rfl⟩ := h
    simp only [not_or, not_not] at h₅
    exact ⟨ys, by rw [not_not.1 h₁], rfl, not_lt.1 h₄, rfl, h₅.1, h₅.2⟩

/-- A decision that delivers takes at least an empty frame. -/
theorem decide_of_length_lt {xs : List Byte} (hl : xs.length < B.headLen + 2) {n : ℕ}
    {o : Option Packet} (h : (scan B head tail last).decide xs = some (n, o)) : o = none := by
  cases xs with
  | nil => simp [scan, scanDecide] at h
  | cons b xs =>
    rw [List.length_cons] at hl
    simp only [scan, scanDecide] at h
    split_ifs at h with h₁ h₂ h₃ h₄ h₅ <;> simp only [Option.some.injEq, Prod.mk.injEq] at h
    · exact h.2.symm
    · exact h.2.symm
    · exact h.2.symm
    · omega

/-- Bytes other than the head byte are skipped. -/
theorem steps_skip {g : List Byte} (hg : ∀ b ∈ g, b ≠ head) (xs : List Byte) :
    (scan B head tail last).Steps (g ++ xs) [] xs := by
  induction g with
  | nil => exact .refl _
  | cons b g ih =>
    have hb : (scan B head tail last).decide (b :: (g ++ xs)) = some (1, none) :=
      decide_skip (hg b (by simp)) _
    exact .step hb (ih fun c hc => hg c (by simp [hc]))

/-- A property of all streams that start with another byte than the head byte is inherited over
skipped bytes. -/
theorem everywhere_skip {P : List Byte → Prop} (hP : ∀ b xs, b ≠ head → P (b :: xs))
    {g : List Byte} (hg : ∀ b ∈ g, b ≠ head) {xs : List Byte}
    (h : (scan B head tail last).Everywhere P xs) :
    (scan B head tail last).Everywhere P (g ++ xs) := by
  induction g with
  | nil => exact h
  | cons b g ih =>
    have hb : b ≠ head := hg b (by simp)
    exact .of_decide (hP _ _ hb) (decide_skip hb (g ++ xs)) (ih fun c hc => hg c (by simp [hc]))

theorem LengthAtMost.of_none {n : ℕ} {xs : List Byte} (h : candidate B head tail xs = none) :
    LengthAtMost B head tail n xs := by
  intro c hc
  rw [h] at hc
  cases hc

theorem LengthAtMost.skip {n : ℕ} {b : Byte} (hb : b ≠ head) (xs : List Byte) :
    LengthAtMost B head tail n (b :: xs) := .of_none (by simp [candidate, hb])

/-- Once a decision is taken, more input adds no length and no rejection. -/
theorem LengthAtMost.append {n : ℕ} {xs : List Byte}
    (hd : (scan B head tail last).decide xs ≠ none) (h : LengthAtMost B head tail n xs)
    (ys : List Byte) : LengthAtMost B head tail n (xs ++ ys) :=
  fun c hc => h c (candidate_of_decide hd hc)

theorem RejectAtMost.append {n : ℕ} {xs : List Byte}
    (hd : (scan B head tail last).decide xs ≠ none) (h : RejectAtMost B head tail last n xs)
    (ys : List Byte) : RejectAtMost B head tail last n (xs ++ ys) := by
  intro c hc hr
  refine h c (candidate_of_decide hd hc) ?_
  obtain ⟨r, hr'⟩ := Option.ne_none_iff_exists'.1 hd
  rw [(scan B head tail last).stable ys hr'] at hr
  rw [hr', hr]

/-- Too few bytes for a frame deliver nothing. -/
theorem run_fst_of_length_lt {xs : List Byte} (hl : xs.length < B.headLen + 2) :
    ((scan B head tail last).run xs).1 = [] := by
  have key : ∀ {xs out ys}, (scan B head tail last).Steps xs out ys →
      xs.length < B.headLen + 2 → out = [] := by
    intro xs out ys h
    induction h with
    | refl => exact fun _ => rfl
    | step hd _ ih =>
      intro hl
      rw [decide_of_length_lt hl hd, ih (by rw [List.length_drop]; omega)]
      rfl
  exact key ((scan B head tail last).steps_run xs) hl

end Reference

end SimpleUv
