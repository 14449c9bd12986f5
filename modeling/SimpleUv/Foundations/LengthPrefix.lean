import SimpleUv.Foundations.Positional
import SimpleUv.Foundations.StreamDecoder

/-!
# Messages with a length in front

A message is sent behind its length, which stands in `k` bytes, the most significant one first. The
`decoder` waits until a message is complete. On a prefix of the stream of a list of messages it returns
those messages that end in it (`run_of_prefix`).
-/

namespace Foundations

namespace LengthPrefix

variable (k : ℕ)

/-- A message behind its length. -/
def encode (m : List (BitVec 8)) : List (BitVec 8) := (toBytes k m.length).reverse ++ m

/-- The stream of a list of messages. -/
def wire (msgs : List (List (BitVec 8))) : List (BitVec 8) := msgs.flatMap (encode k)

/-- The length in the first bytes of a stream. -/
def announced (xs : List (BitVec 8)) : ℕ := ofBytes (xs.take k).reverse

/-- The first message of a stream, when it is complete. -/
def decide (xs : List (BitVec 8)) : Option (ℕ × Option (List (BitVec 8))) :=
  if k + announced k xs ≤ xs.length then
    some (k + announced k xs, some ((xs.drop k).take (announced k xs)))
  else none

variable {k} {xs ys : List (BitVec 8)} {msgs : List (List (BitVec 8))}

theorem announced_append (h : k ≤ xs.length) (ys : List (BitVec 8)) :
    announced k (xs ++ ys) = announced k xs := by
  rw [announced, List.take_append_of_le_length h, announced]

theorem announced_lt (xs : List (BitVec 8)) : announced k xs < 256 ^ k := by
  refine (ofBytes_lt _).trans_le (Nat.pow_le_pow_right (by norm_num) ?_)
  rw [List.length_reverse, List.length_take]
  exact min_le_left _ _

theorem decide_eq_none : decide k xs = none ↔ xs.length < k + announced k xs := by
  unfold decide
  split_ifs with h
  · exact ⟨nofun, fun h' => by omega⟩
  · exact ⟨fun _ => by omega, fun _ => rfl⟩

theorem decide_eq_some (h : k + announced k xs ≤ xs.length) :
    decide k xs = some (k + announced k xs, some ((xs.drop k).take (announced k xs))) := if_pos h

theorem decide_append {r : ℕ × Option (List (BitVec 8))} (h : decide k xs = some r)
    (ys : List (BitVec 8)) : decide k (xs ++ ys) = some r := by
  unfold decide at h
  split_ifs at h with hle
  cases h
  rw [decide, announced_append (by omega), if_pos (by rw [List.length_append]; omega),
    List.drop_append_of_le_length (by omega), List.take_append_of_le_length]
  rw [List.length_drop]
  omega

/-- The decoder. A message is dropped together with its length. -/
def decoder (k : ℕ) (hk : 0 < k) : Decoder (BitVec 8) (List (BitVec 8)) where
  decide := decide k
  pos {xs n o} h := by
    unfold decide at h
    split_ifs at h
    cases h
    omega
  stable ys h := decide_append h ys

@[simp] theorem length_encode (m : List (BitVec 8)) : (encode k m).length = k + m.length := by
  rw [encode, List.length_append, List.length_reverse, length_toBytes]

theorem wire_cons (m : List (BitVec 8)) : wire k (m :: msgs) = encode k m ++ wire k msgs := rfl

theorem announced_encode {m : List (BitVec 8)} (h : m.length < 256 ^ k) (ys : List (BitVec 8)) :
    announced k (encode k m ++ ys) = m.length := by
  rw [announced_append (by rw [length_encode]; omega), announced, encode,
    List.take_left' (by rw [List.length_reverse, length_toBytes]), List.reverse_reverse,
    ofBytes_toBytes_of_lt h]

/-- The first message of a stream that begins with it. -/
theorem decide_encode {m : List (BitVec 8)} (h : m.length < 256 ^ k) (ys : List (BitVec 8)) :
    decide k (encode k m ++ ys) = some (k + m.length, some m) := by
  have hlen : (toBytes k m.length).reverse.length = k := by
    rw [List.length_reverse, length_toBytes]
  rw [decide_eq_some, announced_encode h]
  · rw [encode, List.append_assoc, List.drop_left' hlen, List.take_left]
  · rw [announced_encode h, List.length_append, length_encode]
    omega

section Run

variable (hk : 0 < k)

theorem drop_encode (m ys : List (BitVec 8)) : (encode k m ++ ys).drop (k + m.length) = ys :=
  List.drop_left' (length_encode m)

theorem run_encode {m : List (BitVec 8)} (h : m.length < 256 ^ k) (ys : List (BitVec 8)) :
    (decoder k hk).run (encode k m ++ ys) =
      (m :: ((decoder k hk).run ys).1, ((decoder k hk).run ys).2) := by
  have hstep := Decoder.Steps.one (D := decoder k hk) (decide_encode h ys)
  rw [drop_encode] at hstep
  exact hstep.run_eq

/-- The first `j` messages are those that end within the first `n` bytes of the stream. -/
structure Complete (k : ℕ) (msgs : List (List (BitVec 8))) (n j : ℕ) : Prop where
  ends : (wire k (msgs.take j)).length ≤ n
  next : j < msgs.length → n < (wire k (msgs.take (j + 1))).length

/-- **On a prefix of the stream** the messages that end in it are decoded. -/
theorem run_of_prefix (h : ∀ m ∈ msgs, m.length < 256 ^ k) (hxs : xs <+: wire k msgs) :
    ∃ j, ((decoder k hk).run xs).1 = msgs.take j ∧ Complete k msgs xs.length j := by
  induction msgs generalizing xs with
  | nil =>
    obtain rfl : xs = [] := List.prefix_nil.1 hxs
    refine ⟨0, ?_, le_rfl, nofun⟩
    rw [Decoder.run_of_decide_none (decide_eq_none.2 (by simp; omega))]
    rfl
  | cons m msgs ih =>
    have hm := h m List.mem_cons_self
    rw [wire_cons] at hxs
    rcases lt_or_ge xs.length (k + m.length) with hlt | hge
    · -- the first message is not complete: a decision would also be one on its encoding
      have hpre : xs <+: encode k m := by
        refine List.prefix_of_prefix_length_le hxs (List.prefix_append _ _) ?_
        rw [length_encode]
        omega
      obtain ⟨ys, hys⟩ := hpre
      have hnone : decide k xs = none := by
        cases hdec : decide k xs with
        | none => rfl
        | some r =>
          have hall := decide_append hdec ys
          have hone := decide_encode hm []
          rw [List.append_nil, ← hys, hall] at hone
          cases hone
          have := ((decoder k hk).pos hdec).2
          omega
      refine ⟨0, ?_, Nat.zero_le _, fun _ => ?_⟩
      · rw [Decoder.run_of_decide_none hnone]
        rfl
      · simpa [wire] using hlt
    · obtain ⟨ys, rfl⟩ : encode k m <+: xs := by
        refine List.prefix_of_prefix_length_le (List.prefix_append _ _) hxs ?_
        rw [length_encode]
        omega
      obtain ⟨j, hrun, hends, hnext⟩ := ih (fun x hx => h x (List.mem_cons_of_mem m hx))
        ((List.prefix_append_right_inj _).1 hxs)
      refine ⟨j + 1, ?_, ?_, fun hj => ?_⟩
      · rw [run_encode hk hm, hrun, List.take_succ_cons]
      · rw [List.take_succ_cons, wire_cons, List.length_append, List.length_append]
        omega
      · have := hnext (by rw [List.length_cons] at hj; omega)
        rw [List.take_succ_cons, wire_cons, List.length_append, List.length_append]
        omega

/-- What holds of the lengths of the messages holds of every length the decoder meets. -/
theorem everywhere_of_prefix {P : ℕ → Prop} (h : ∀ m ∈ msgs, m.length < 256 ^ k)
    (hP : ∀ m ∈ msgs, P m.length) (hxs : xs <+: wire k msgs) :
    (decoder k hk).Everywhere (fun ys => k ≤ ys.length → P (announced k ys)) xs := by
  obtain ⟨zs, hzs⟩ := hxs
  refine Decoder.Everywhere.of_append (fun ys zs h hle => ?_)
    (?_ : (decoder k hk).Everywhere _ (xs ++ zs))
  · rw [← announced_append hle zs]
    exact h (by rw [List.length_append]; omega)
  · rw [hzs]
    clear hzs
    induction msgs with
    | nil =>
      refine .of_decide_none (fun hle => ?_) (decide_eq_none.2 (by simp [wire]; omega))
      simp only [wire, List.flatMap_nil, List.length_nil] at hle
      omega
    | cons m msgs ih =>
      have hm := h m List.mem_cons_self
      rw [wire_cons]
      refine .of_decide (fun _ => ?_) (decide_encode hm _) ?_
      · rw [announced_encode hm]
        exact hP m List.mem_cons_self
      · rw [drop_encode]
        exact ih (fun x hx => h x (List.mem_cons_of_mem m hx))
          fun x hx => hP x (List.mem_cons_of_mem m hx)

end Run

end LengthPrefix

end Foundations
