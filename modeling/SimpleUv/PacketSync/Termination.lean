import SimpleUv.PacketSync.Narrowing

/-!
# The loop ends

The loop of `recvdata` also runs on without input, and puts bytes back when it rejects a frame. The
measure `work` gets smaller all the same, so an iteration that goes on has copied input, or has taken
bytes out of what the parser holds and has not read (`Progresses`). The measure counts every byte held
once, wherever it is, and every unread byte twice; in an iteration that meets an index of a head byte
which does not survive its conversion to `int`, the access behind it leaves the buffer
(`terminates_iff`).
-/

namespace SimpleUv

open Foundations

namespace CPacketSync

variable (B : Build)

/-- The bytes that are held or unread. -/
def logical (p : CPacketSync) (data : List Byte) (iret : ℕ) : List Byte :=
  p.pending B ++ data.drop iret

/-- The iteration returns, or copies input, or takes bytes out of the logical stream. -/
inductive Progresses (p : CPacketSync) (data : List Byte) (iret : ℕ) : Option Turn → Prop
  | returns (q : CPacketSync) : Progresses p data iret (some (.ret q))
  | copies {q : CPacketSync} {i : ℕ} {o : Option Delivery} (h : iret < i) (hi : i ≤ data.length) :
    Progresses p data iret (some (.next q i o))
  | removes {q : CPacketSync} {i : ℕ} {o : Option Delivery}
    (h : (q.logical B data i).length < (p.logical B data iret).length) :
    Progresses p data iret (some (.next q i o))

/-- All calls end, and every iteration on the way makes progress. -/
structure Terminates (p : CPacketSync) (cs : List (Chunk B)) : Prop where
  ends : ∃ q out, p.feed B cs = .done q out
  progress : ∀ d q i, Visit B p cs d q i → q.Goes B d.bytes i →
    Progresses B q d.bytes i (q.turn B d.bytes i)

variable {B} {head tail : Byte} {cap : ℕ} {p : CPacketSync} {data : List Byte} {iret : ℕ}

/-- Less work is progress. -/
theorem Advances.progresses {r : Option Turn} (h : Advances B head tail cap p data iret r) :
    Progresses B p data iret r := by
  obtain ⟨q, i, o, rfl, -, hi, -, hwork⟩ := h
  unfold work at hwork
  by_cases hcopy : iret < i
  · exact .copies hcopy hi
  · refine .removes ?_
    simp only [logical, List.length_append, List.length_drop]
    omega

theorem Waits.progresses {r : Option Turn} (h : Waits B head tail cap p data iret r) :
    Progresses B p data iret r := by
  obtain ⟨q, rfl, -⟩ := h
  exact .returns q

/-- The iterations of a run whose indices survive make progress. -/
theorem Visit.progresses {cs : List (Chunk B)} (hcap : cap ≤ maxCap B) (hp : Inv B head tail cap p)
    (hroom : RoomFor B head tail cap (p.pending B ++ streamOf cs))
    (hlen : (signedScan B head tail).Everywhere (LengthAtMost B head tail (2 ^ 31 - 2))
      (p.pending B ++ streamOf cs))
    (hfit : ∀ d q i, Visit B p cs d q i → q.Goes B d.bytes i → q.HeadposSurvives B d.bytes i)
    {d : Chunk B} {q : CPacketSync} {i : ℕ} (hv : Visit B p cs d q i) (hg : q.Goes B d.bytes i) :
    Progresses B q d.bytes i (q.turn B d.bytes i) := by
  obtain ⟨hq, hi, out, rest, hs⟩ := hv.inv hp hcap hroom fun d r j out rest hv hr _ hs hg _ =>
    ⟨hfit d r j hv hg, datalenSurvives_of_everywhere hr (hlen.of_steps hs)⟩
  have hroom' := hroom.of_steps hs
  rcases turn_spec hq hcap hi d.size hg hroom'.of_append (hfit d q i hv hg)
    (datalenSurvives_of_everywhere hq (hlen.of_steps hs)) with h | h
  · exact h.progresses
  · exact h.progresses

/-- **The loop ends on every input, each iteration making progress, exactly when every search finds
its head byte at an index that survives its conversion to `int`.** -/
theorem terminates_iff (B : Build) (u : Uninit) (head tail : Byte) (cs : List (Chunk B))
    (hlen : (signedScan B head tail).Everywhere (LengthAtMost B head tail (2 ^ 31 - 2))
      (streamOf cs)) :
    Terminates B (fresh u head tail) cs ↔
      ∀ d q i, Visit B (fresh u head tail) cs d q i → q.Goes B d.bytes i →
        q.HeadposSurvives B d.bytes i := by
  have hinv := inv_fresh B u head tail (bufferSize_le_maxCap B)
  constructor
  · rintro ⟨⟨q, out, hf⟩, -⟩ d r i hv hg
    exact headposSurvives_of_feed le_rfl hinv (.inl rfl) hlen hf hv hg
  · intro hfit
    obtain ⟨q, out, hf, -⟩ := feed_of_headposSurvives le_rfl cs hinv (.inl rfl) rfl hlen
      fun d r j hv _ hg => hfit d r j hv hg
    exact ⟨⟨q, out, hf⟩, fun d r i hv hg =>
      Visit.progresses le_rfl hinv (.inl rfl) hlen hfit hv hg⟩

/-- The loop ends on a stream with a frame that is rejected and one that is not, cut inside the second. -/
theorem terminates_mixed : Terminates zeroBuild (fresh zeroUninit serverPacketHead serverPacketTail)
    [firstChunk, secondChunk] :=
  (terminates_iff zeroBuild zeroUninit serverPacketHead serverPacketTail [firstChunk, secondChunk]
    lengths_mixed).2 fun _ _ _ hv _ => (survives_mixed hv).1

/-- On the rejected frame of `2 ^ 31 - 2` bytes an iteration is a fault. -/
theorem hugeFrame_not_terminates :
    (signedScan zeroBuild serverPacketHead serverPacketTail).Everywhere
      (LengthAtMost zeroBuild serverPacketHead serverPacketTail (2 ^ 31 - 2))
      (streamOf [hugeFrame]) ∧
    ¬ Terminates zeroBuild (fresh zeroUninit serverPacketHead serverPacketTail) [hugeFrame] := by
  have hb : ∀ b ∈ List.replicate (2 ^ 31 - 2) (0 : Byte), b = 0 :=
    fun b h => List.eq_of_mem_replicate h
  have hstream : streamOf [hugeFrame] =
      serverPacketHead :: (hugeHeader ++ (List.replicate (2 ^ 31 - 2) 0 ++ [1])) := by
    rw [streamOf_cons, streamOf_nil, List.append_nil, hugeFrame]
  have hlen := everywhere_huge hb List.length_replicate
  rw [← hstream, ← signedScan_eq (by decide)] at hlen
  refine ⟨hlen, ?_⟩
  rintro ⟨⟨q, out, hf⟩, -⟩
  obtain ⟨r, hv, hg, hr⟩ := visit_huge hb List.length_replicate zeroUninit hugeFrame rfl
  exact hr (headposSurvives_of_feed le_rfl (inv_fresh _ _ _ _ (bufferSize_le_maxCap _)) (.inl rfl)
    hlen hf hv hg)

end CPacketSync

end SimpleUv
