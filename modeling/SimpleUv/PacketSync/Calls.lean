import SimpleUv.PacketSync.Frame

/-!
# Sequences of calls of the parser

A stream arrives in chunks, one `recvdata` call each (`feed`). `Visit` lists the loop heads such a
sequence of calls passes; properties of a run of the parser are stated about them. A chunk is an
object in memory, which takes less than half of the address space.
-/

namespace SimpleUv

open Foundations

/-- The input of a `recvdata` call. -/
structure Chunk (B : Build) where
  bytes : List Byte
  size : 2 * bytes.length < B.sizeT.modulus

/-- The stream a sequence of chunks carries. -/
def streamOf {B : Build} (chunks : List (Chunk B)) : List Byte := chunks.flatMap Chunk.bytes

@[simp] theorem streamOf_nil {B : Build} : streamOf ([] : List (Chunk B)) = [] := rfl

@[simp] theorem streamOf_cons {B : Build} (c : Chunk B) (cs : List (Chunk B)) :
    streamOf (c :: cs) = c.bytes ++ streamOf cs := rfl

@[simp] theorem streamOf_append {B : Build} (cs ds : List (Chunk B)) :
    streamOf (cs ++ ds) = streamOf cs ++ streamOf ds := List.flatMap_append

/-- Every sequence of bytes arrives in chunks. -/
theorem exists_chunks (B : Build) (xs : List Byte) : ∃ cs : List (Chunk B), streamOf cs = xs := by
  have hone : 2 * 1 < B.sizeT.modulus := lt_of_lt_of_le (by norm_num) (two_pow_le_modulus _)
  refine ⟨xs.map fun b => ⟨[b], hone⟩, ?_⟩
  rw [streamOf, List.flatMap_map]
  exact List.flatMap_singleton' _

namespace CPacketSync

variable (B : Build)

/-- The calls on a sequence of chunks, with all packets they deliver. -/
def feed (p : CPacketSync) : List (Chunk B) → Outcome
  | [] => .done p []
  | c :: cs =>
    match p.recvdata B c.bytes with
    | .done p out => (feed p cs).emit out
    | .fault => .fault
    | .outOfFuel => .outOfFuel

/-- The loop heads a call on `data` passes, with the input position. -/
inductive LoopHead (data : List Byte) (p : CPacketSync) (iret : ℕ) : CPacketSync → ℕ → Prop
  | start : LoopHead data p iret p iret
  | next {q r : CPacketSync} {i j : ℕ} {o : Option Delivery} (h : LoopHead data p iret q i)
      (hg : q.Goes B data i) (ht : q.turn B data i = some (.next r j o)) :
      LoopHead data p iret r j

/-- The loop heads a sequence of calls passes, each with the chunk of its call. -/
inductive Visit : CPacketSync → List (Chunk B) → Chunk B → CPacketSync → ℕ → Prop
  | now {p q : CPacketSync} {c : Chunk B} {cs : List (Chunk B)} {i : ℕ}
      (h : LoopHead B c.bytes p 0 q i) : Visit p (c :: cs) c q i
  | later {p p' q : CPacketSync} {c d : Chunk B} {cs : List (Chunk B)} {i : ℕ}
      {out : List Delivery} (hc : p.recvdata B c.bytes = .done p' out)
      (h : Visit p' cs d q i) : Visit p (c :: cs) d q i

/-- The bytes an iteration searches for a head byte: those of the read buffer, and the unread input
as far as there is room for it. -/
def window (p : CPacketSync) (data : List Byte) (iret : ℕ) : List Byte :=
  (p.threadReaddata.base.take p.truepacketlen ++ data.drop iret).take p.threadReaddata.len

/-- The search of an iteration finds its head byte at an index that survives its conversion to
`int`. -/
def HeadposSurvives (p : CPacketSync) (data : List Byte) (iret : ℕ) : Prop :=
  p.parsetype = .nothing → HeadposFits B p.head (p.window data iret)

/-- The header an iteration accepts announces a length that survives its conversion to `int`. -/
def DatalenSurvives (p : CPacketSync) (data : List Byte) (iret : ℕ) : Prop :=
  p.parsetype = .nothing → LengthFits B p.head p.tail (p.window data iret)

variable {B} {p p' q : CPacketSync} {data : List Byte} {iret i : ℕ}

theorem LoopHead.head {r : CPacketSync} {j : ℕ} {o : Option Delivery} (hg : p.Goes B data iret)
    (ht : p.turn B data iret = some (.next q i o)) (h : LoopHead B data q i r j) :
    LoopHead B data p iret r j := by
  induction h with
  | start => exact .next .start hg ht
  | next _ hg' ht' ih => exact .next ih hg' ht'

theorem Outcome.emit_eq_done {out₀ out : List Delivery} {r : Outcome}
    (h : r.emit out₀ = .done p out) : ∃ out', r = .done p out' ∧ out = out₀ ++ out' := by
  cases r with
  | done q out' =>
    cases h
    exact ⟨out', rfl, rfl⟩
  | fault => cases h
  | outOfFuel => cases h

/-- A call that returns passes loop heads from which the loop returns. -/
theorem LoopHead.done (h : LoopHead B data p iret q i) {k : ℕ} {out : List Delivery}
    (hr : p.recvLoop B data k iret = .done p' out) :
    ∃ k' out', q.recvLoop B data k' i = .done p' out' := by
  induction h with
  | start => exact ⟨k, out, hr⟩
  | next _ hg ht ih =>
    obtain ⟨k', out', ih⟩ := ih
    cases k' with
    | zero => cases ih
    | succ k' =>
      rw [recvLoop, if_pos hg, ht] at ih
      obtain ⟨out'', h'', -⟩ := Outcome.emit_eq_done ih
      exact ⟨k', out'', h''⟩

/-- No iteration of a call that returns is a fault. -/
theorem LoopHead.turn_ne_none (h : LoopHead B data p iret q i) {k : ℕ} {out : List Delivery}
    (hr : p.recvLoop B data k iret = .done p' out) (hg : q.Goes B data i) :
    q.turn B data i ≠ none := by
  intro ht
  obtain ⟨k', out', hk⟩ := h.done hr
  cases k' with
  | zero => cases hk
  | succ k' =>
    rw [recvLoop, if_pos hg, ht] at hk
    cases hk

theorem feed_cons_done {c : Chunk B} {cs : List (Chunk B)} {out : List Delivery}
    (h : p.feed B (c :: cs) = .done q out) :
    ∃ p' out₁ out₂, p.recvdata B c.bytes = .done p' out₁ ∧ p'.feed B cs = .done q out₂ ∧
      out = out₁ ++ out₂ := by
  simp only [feed] at h
  split at h
  · next p' out₁ hc =>
    obtain ⟨out₂, h₂, rfl⟩ := Outcome.emit_eq_done h
    exact ⟨p', out₁, out₂, hc, h₂, rfl⟩
  · cases h
  · cases h

theorem feed_cons_of_done {c : Chunk B} {cs : List (Chunk B)} {out₁ out₂ : List Delivery}
    (h₁ : p.recvdata B c.bytes = .done p' out₁) (h₂ : p'.feed B cs = .done q out₂) :
    p.feed B (c :: cs) = .done q (out₁ ++ out₂) := by
  simp only [feed, h₁, h₂, Outcome.emit]

/-- Faults of the single iterations are faults of the run. -/
theorem Visit.turn_ne_none {cs : List (Chunk B)} {d : Chunk B} (h : Visit B p cs d q i)
    {out : List Delivery} (hf : p.feed B cs = .done p' out) (hg : q.Goes B d.bytes i) :
    q.turn B d.bytes i ≠ none := by
  induction h generalizing out with
  | now h =>
    obtain ⟨p₁, out₁, out₂, hc, -⟩ := feed_cons_done hf
    exact h.turn_ne_none hc hg
  | later hc _ ih =>
    obtain ⟨p₁, out₁, out₂, hc', hf', -⟩ := feed_cons_done hf
    rw [hc] at hc'
    cases hc'
    exact ih hf' hg

theorem Visit.append {cs : List (Chunk B)} {d : Chunk B} (h : Visit B p cs d q i)
    (ds : List (Chunk B)) : Visit B p (cs ++ ds) d q i := by
  induction h with
  | now h => exact .now h
  | later hc _ ih => exact .later hc ih

end CPacketSync

end SimpleUv
