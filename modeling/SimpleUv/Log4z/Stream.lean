import SimpleUv.Machine.Build
import Mathlib.Data.List.GetD
import Mathlib.Data.Nat.Digits.Defs

/-!
# The stream of a log message: `Log4zStream`

A `Log4zStream` writes into a part of the content of a log record, and cuts what does not fit. What it writes
is a tree of values: a container writes its elements and a comma behind each, and takes the last comma back
by moving its pointer. Each access is checked here: it is `none` to store outside of the part given to the
stream, or to move the pointer in front of it. Nothing that a program logs leads to that, if the part has at
least two bytes; and what fits is written as it is (`write_spec`).
-/

namespace SimpleUv.Log4z

/-- Characters as bytes. -/
def ascii (l : List Char) : List Byte := l.map fun c => .ofNat 8 c.toNat

/-- The members of `Log4zStream`, as positions in the content of the record. -/
structure Log4zStream where
  content : ℕ → Byte
  bufBegin : ℕ
  bufEnd : ℕ
  cur : ℕ

/-- `LOG4Z_LOG_CONTAINER_DEPTH`. -/
def containerDepth : ℕ := 5

mutual

/-- What is written by `operator <<`: the characters that `snprintf` gives, with `none` for its failure; a string;
a pair; a container, with the characters in front of its size. -/
inductive Item
  | data (text : Option (List Byte))
  | str (t : List Byte)
  | pair (a b : Item)
  | container (name : List Byte) (items : Items)

/-- The elements of a container. -/
inductive Items
  | nil
  | cons (i : Item) (is : Items)

end

/-- `size()`. -/
def Items.size : Items → ℕ
  | .nil => 0
  | .cons _ is => is.size + 1

/-- The content with the bytes `bs` from a position on. -/
def patch (content : ℕ → Byte) (pos : ℕ) (bs : List Byte) : ℕ → Byte := fun i =>
  if pos ≤ i ∧ i < pos + bs.length then bs.getD (i - pos) 0 else content i

namespace Log4zStream

/-- The bytes `bs` are stored from a position on, in the part of the stream. -/
def store (s : Log4zStream) (pos : ℕ) (bs : List Byte) : Option Log4zStream :=
  if s.bufBegin ≤ pos ∧ pos + bs.length ≤ s.bufEnd then some { s with content := patch s.content pos bs }
  else none

/-- `writeData`. -/
def writeData (s : Log4zStream) (text : Option (List Byte)) : Option Log4zStream :=
  if s.cur < s.bufEnd then
    let count := s.bufEnd - s.cur
    match text with
    | none => s.store s.cur [0]
    | some t => do
      -- `snprintf` stores at most `count - 1` characters and the terminator.
      let s ← s.store s.cur (t.take (count - 1) ++ [0])
      if t.length ≥ count then
        let s ← s.store (s.bufEnd - 1) [0]
        return { s with cur := s.cur + count }
      else return { s with cur := s.cur + t.length }
  else some s

/-- `writeString`. -/
def writeString (s : Log4zStream) (t : List Byte) : Option Log4zStream :=
  if s.cur < s.bufEnd then do
    let len := min t.length (s.bufEnd - s.cur)
    let s ← s.store s.cur (t.take len)
    let s := { s with cur := s.cur + len }
    if s.cur ≥ s.bufEnd - 1 then s.store (s.bufEnd - 1) [0] else s.store (s.cur + 1) [0]
  else some s

/-- `_cur -= 2`. -/
def back (s : Log4zStream) : Option Log4zStream :=
  if s.bufBegin + 2 ≤ s.cur then some { s with cur := s.cur - 2 } else none

mutual

/-- `operator <<`. -/
def write : Item → Log4zStream → Option Log4zStream
  | .data text, s => s.writeData text
  | .str t, s => s.writeString t
  | .pair a b, s => do
    let s ← s.writeString (ascii ['p', 'a', 'i', 'r', '('])
    let s ← write a s
    let s ← s.writeString (ascii [':'])
    let s ← write b s
    s.writeString (ascii [')'])
  | .container name items, s => do
    let s ← s.writeString name
    let s ← s.writeData (some (ascii (Nat.toDigits 10 items.size)))
    let s ← s.writeString (ascii [')', '['])
    let s ← writeItems items 0 s
    let s ← if items.size ≠ 0 then s.back else some s
    s.writeString (ascii [']'])

/-- The loop over the elements of a container. -/
def writeItems : Items → ℕ → Log4zStream → Option Log4zStream
  | .nil, _, s => some s
  | .cons i is, inputCount, s =>
    if inputCount + 1 > containerDepth then s.writeString (ascii ['.', '.', '.', ',', ' '])
    else do
      let s ← write i s
      let s ← s.writeString (ascii [',', ' '])
      writeItems is (inputCount + 1) s

end

end Log4zStream

mutual

/-- The characters of a value. -/
def Item.text : Item → List Byte
  | .data text => text.getD []
  | .str t => t
  | .pair a b => ascii ['p', 'a', 'i', 'r', '('] ++ a.text ++ ascii [':'] ++ b.text ++ ascii [')']
  | .container name items => name ++ ascii (Nat.toDigits 10 items.size) ++ ascii [')', '['] ++
      (items.text 0).take ((items.text 0).length - 2) ++ ascii [']']

/-- The characters of the elements of a container, with a comma behind each. -/
def Items.text : Items → ℕ → List Byte
  | .nil, _ => []
  | .cons i is, inputCount =>
    if inputCount + 1 > containerDepth then ascii ['.', '.', '.', ',', ' ']
    else i.text ++ ascii [',', ' '] ++ is.text (inputCount + 1)

end

/-- The `n` bytes from a position on. -/
def bytesAt (content : ℕ → Byte) (pos n : ℕ) : List Byte := (List.range n).map fun i => content (pos + i)

@[simp] theorem length_bytesAt (content : ℕ → Byte) (pos n : ℕ) : (bytesAt content pos n).length = n := by
  rw [bytesAt, List.length_map, List.length_range]

theorem bytesAt_append (content : ℕ → Byte) (pos m n : ℕ) :
    bytesAt content pos m ++ bytesAt content (pos + m) n = bytesAt content pos (m + n) := by
  simp only [bytesAt, List.range_add, List.map_append, List.map_map, Function.comp_def, Nat.add_assoc]

theorem bytesAt_congr {content content' : ℕ → Byte} {pos n : ℕ}
    (h : ∀ i, pos ≤ i → i < pos + n → content i = content' i) :
    bytesAt content pos n = bytesAt content' pos n := by
  refine List.map_congr_left fun i hi => h _ (Nat.le_add_right _ _) ?_
  have := List.mem_range.1 hi
  omega

theorem take_bytesAt (content : ℕ → Byte) (pos : ℕ) {m n : ℕ} (h : m ≤ n) :
    (bytesAt content pos n).take m = bytesAt content pos m := by
  rw [← Nat.add_sub_cancel' h, ← bytesAt_append]
  exact List.take_left' (length_bytesAt _ _ _)

theorem patch_of_not {content : ℕ → Byte} {pos i : ℕ} {bs : List Byte} (h : i < pos ∨ pos + bs.length ≤ i) :
    patch content pos bs i = content i := if_neg (by omega)

theorem bytesAt_patch (content : ℕ → Byte) (pos : ℕ) (bs : List Byte) :
    bytesAt (patch content pos bs) pos bs.length = bs := by
  refine List.ext_getElem (length_bytesAt _ _ _) fun i hi hi' => ?_
  have hin : pos ≤ pos + i ∧ pos + i < pos + bs.length := ⟨Nat.le_add_right _ _, by omega⟩
  simp only [bytesAt, List.getElem_map, List.getElem_range, patch]
  rw [if_pos hin, Nat.add_sub_cancel_left, List.getD_eq_getElem _ _ hi']

theorem bytesAt_patch_left (content : ℕ → Byte) (pos : ℕ) (x y : List Byte) :
    bytesAt (patch content pos (x ++ y)) pos x.length = x := by
  have hbytes := bytesAt_patch content pos (x ++ y)
  rw [List.length_append, ← bytesAt_append] at hbytes
  exact List.append_inj_left hbytes (length_bytesAt _ _ _)

namespace Log4zStream

variable {s t u : Log4zStream} {x y : List Byte} {k : ℕ}

theorem store_eq {pos : ℕ} {bs : List Byte} (hpos : s.bufBegin ≤ pos) (hend : pos + bs.length ≤ s.bufEnd) :
    s.store pos bs = some { s with content := patch s.content pos bs } := if_pos ⟨hpos, hend⟩

/-- The pointer is in the part of the stream. -/
structure Inside (s : Log4zStream) : Prop where
  ge : s.bufBegin ≤ s.cur
  le : s.cur ≤ s.bufEnd

/-- What a write of the characters `x` does: only the part of the stream is changed, and the pointer stays in
it; and where the characters fit with `k` more and the terminator, they are what is written. -/
structure Writes (k : ℕ) (s t : Log4zStream) (x : List Byte) : Prop where
  bufBegin : t.bufBegin = s.bufBegin
  bufEnd : t.bufEnd = s.bufEnd
  inside : t.Inside
  progress : min s.cur (s.bufEnd - 1) ≤ t.cur
  frame : ∀ i, i < s.bufBegin ∨ s.bufEnd ≤ i → t.content i = s.content i
  fits : s.cur + x.length + k < s.bufEnd → t.cur = s.cur + x.length ∧
    (∀ i < s.cur, t.content i = s.content i) ∧ bytesAt t.content s.cur x.length = x

namespace Writes

theorem refl (hs : s.Inside) : Writes k s s [] where
  bufBegin := rfl
  bufEnd := rfl
  inside := hs
  progress := Nat.min_le_left _ _
  frame _ _ := rfl
  fits _ := ⟨rfl, fun _ _ => rfl, rfl⟩

theorem mono (h : Writes 0 s t x) : Writes 1 s t x := { h with fits := fun hfit => h.fits (by omega) }

/-- What is written behind `x` uses the room that is left. -/
theorem trans {l : ℕ} (h : Writes k s t x) (h' : Writes l t u y) (hkl : k ≤ y.length + l) :
    Writes l s u (x ++ y) where
  bufBegin := h'.bufBegin.trans h.bufBegin
  bufEnd := h'.bufEnd.trans h.bufEnd
  inside := h'.inside
  progress := by
    have hp := h.progress
    have hp' := h'.progress
    rw [h.bufEnd] at hp'
    omega
  frame i hi := by
    rw [h'.frame i (by rwa [h.bufBegin, h.bufEnd]), h.frame i hi]
  fits hfit := by
    rw [List.length_append] at hfit ⊢
    obtain ⟨hcur, hold, htext⟩ := h.fits (by omega)
    obtain ⟨hcur', hold', htext'⟩ := h'.fits (by rw [hcur, h.bufEnd]; omega)
    refine ⟨by rw [hcur', hcur, Nat.add_assoc], fun i hi => ?_, ?_⟩
    · rw [hold' i (by omega), hold i hi]
    · have hfirst : bytesAt u.content s.cur x.length = x :=
        (bytesAt_congr fun i _ hi => hold' i (hcur ▸ hi)).trans htext
      rw [← bytesAt_append, hfirst, ← hcur, htext']

theorem room (h : Writes k s t x) (hroom : s.bufBegin + 2 ≤ s.bufEnd) : t.bufBegin + 2 ≤ t.bufEnd := by
  rw [h.bufBegin, h.bufEnd]
  exact hroom

end Writes

/-- A write that stores behind the pointer and moves it as far as there is room. -/
theorem writes_of_patch (hs : s.Inside) {content : ℕ → Byte} {pos : ℕ}
    (hpos : pos = min (s.cur + x.length) s.bufEnd)
    (hframe : ∀ i, i < s.cur ∨ s.bufEnd ≤ i → content i = s.content i)
    (htext : s.cur + x.length < s.bufEnd → bytesAt content s.cur x.length = x) :
    Writes 0 s { s with content := content, cur := pos } x where
  bufBegin := rfl
  bufEnd := rfl
  inside := by
    obtain ⟨hge, hle⟩ := hs
    exact ⟨by dsimp only; omega, by dsimp only; omega⟩
  progress := by
    have hle := hs.le
    dsimp only
    omega
  frame i hi := hframe i (hi.imp_left hs.ge.trans_lt')
  fits hfit := ⟨by dsimp only; omega, fun i hi => hframe i (.inl hi), htext hfit⟩

theorem writeString_spec (hs : s.Inside) (x : List Byte) : ∃ t, s.writeString x = some t ∧
    Writes 0 s t x ∧ t.cur = min (s.cur + x.length) s.bufEnd := by
  have hge := hs.ge
  have hle := hs.le
  by_cases hlt : s.cur < s.bufEnd
  · obtain ⟨len, hlen⟩ : ∃ len, len = min x.length (s.bufEnd - s.cur) := ⟨_, rfl⟩
    have htake : (x.take len).length = len := List.length_take_of_le (by omega)
    have hcur : s.cur + len = min (s.cur + x.length) s.bufEnd := by omega
    have hput : s.store s.cur (x.take len) = _ := store_eq hge (by rw [htake]; omega)
    -- The terminator goes to the last byte, or to the second one behind the characters.
    obtain ⟨nul, hnul, hfit, hwrite⟩ : ∃ nul, (s.cur ≤ nul ∧ nul < s.bufEnd) ∧
        (s.cur + x.length < s.bufEnd → s.cur + x.length ≤ nul) ∧
        s.writeString x = some { s with
          content := patch (patch s.content s.cur (x.take len)) nul [0], cur := s.cur + len } := by
      rw [writeString, if_pos hlt, ← hlen]
      dsimp only
      rw [hput]
      by_cases hlast : s.cur + len ≥ s.bufEnd - 1
      · refine ⟨s.bufEnd - 1, by omega, by omega, ?_⟩
        show (if s.cur + len ≥ s.bufEnd - 1 then store _ (s.bufEnd - 1) [0] else _) = _
        rw [if_pos hlast]
        exact store_eq (by dsimp only; omega) (by dsimp only [List.length_singleton]; omega)
      · refine ⟨s.cur + len + 1, by omega, by omega, ?_⟩
        show (if s.cur + len ≥ s.bufEnd - 1 then _ else store _ (s.cur + len + 1) [0]) = _
        rw [if_neg hlast]
        exact store_eq (by dsimp only; omega) (by dsimp only [List.length_singleton]; omega)
    refine ⟨_, hwrite, writes_of_patch hs hcur (fun i hi => ?_) fun hroom => ?_, hcur⟩
    · rw [patch_of_not (by rw [List.length_singleton]; omega), patch_of_not (by rw [htake]; omega)]
    · have hall : x.take len = x := List.take_of_length_le (by omega)
      rw [hall, bytesAt_congr fun i _ hi => patch_of_not (.inl (hi.trans_le (hfit hroom)))]
      exact bytesAt_patch _ _ _
  · rw [writeString, if_neg hlt]
    have hpos : s.cur = min (s.cur + x.length) s.bufEnd := by omega
    exact ⟨s, rfl, writes_of_patch hs hpos (fun _ _ => rfl) fun hfit => by omega, hpos⟩

theorem writeData_spec (hs : s.Inside) (text : Option (List Byte)) : ∃ t, s.writeData text = some t ∧
    Writes 0 s t (text.getD []) := by
  have hge := hs.ge
  have hle := hs.le
  by_cases hlt : s.cur < s.bufEnd
  · cases text with
    | none =>
      have hput : s.store s.cur [0] = _ := store_eq hge hlt
      rw [writeData, if_pos hlt]
      refine ⟨_, hput, writes_of_patch hs ?_ (fun i hi => patch_of_not ?_) fun _ => rfl⟩
      · show s.cur = min (s.cur + 0) s.bufEnd
        omega
      · rw [List.length_singleton]
        omega
    | some x =>
      have hlen : (x.take (s.bufEnd - s.cur - 1) ++ [0]).length ≤ s.bufEnd - s.cur := by
        rw [List.length_append, List.length_take, List.length_singleton]
        omega
      have hput : s.store s.cur (x.take (s.bufEnd - s.cur - 1) ++ [0]) = _ := store_eq hge (by omega)
      show ∃ t, s.writeData (some x) = some t ∧ Writes 0 s t x
      rw [writeData, if_pos hlt]
      dsimp only
      rw [hput]
      by_cases hlong : x.length ≥ s.bufEnd - s.cur
      · have hnul : Log4zStream.store { s with
            content := patch s.content s.cur (x.take (s.bufEnd - s.cur - 1) ++ [0]) }
            (s.bufEnd - 1) [0] = _ :=
          store_eq (by dsimp only; omega) (by dsimp only [List.length_singleton]; omega)
        show ∃ t, (if x.length ≥ s.bufEnd - s.cur then _ else _) = some t ∧ _
        rw [if_pos hlong]
        show ∃ t, (Log4zStream.store _ (s.bufEnd - 1) [0]).bind _ = some t ∧ _
        rw [hnul]
        refine ⟨_, rfl, writes_of_patch hs ?_ (fun i hi => ?_) fun hfit => by omega⟩
        · dsimp only
          omega
        · dsimp only
          rw [patch_of_not (by rw [List.length_singleton]; omega), patch_of_not (by omega)]
      · show ∃ t, (if x.length ≥ s.bufEnd - s.cur then _ else _) = some t ∧ _
        rw [if_neg hlong]
        refine ⟨_, rfl, writes_of_patch hs ?_ (fun i hi => patch_of_not (by omega)) fun _ => ?_⟩
        · dsimp only
          omega
        · have hall : x.take (s.bufEnd - s.cur - 1) = x := List.take_of_length_le (by omega)
          rw [hall]
          exact bytesAt_patch_left s.content s.cur x [0]
  · rw [writeData, if_neg hlt]
    exact ⟨s, rfl, writes_of_patch hs (by omega) (fun _ _ => rfl) fun hfit => by omega⟩

/-- The last comma is taken back, and the container closed. -/
theorem Writes.close (h : Writes 0 s t (x ++ y)) (hs : s.Inside) (hroom : s.bufBegin + 2 ≤ s.bufEnd)
    (hy : 2 ≤ y.length) (hcur : min (s.cur + 2) s.bufEnd ≤ t.cur) :
    ∃ u, (t.back.bind fun t => t.writeString (ascii [']'])) = some u ∧
      Writes 1 s u (x ++ y.take (y.length - 2) ++ ascii [']']) := by
  have hge := hs.ge
  have hle := h.inside.le
  have hbegin := h.bufBegin
  have hend := h.bufEnd
  have hback : t.back = some { t with cur := t.cur - 2 } := if_pos (by omega)
  have hin : Log4zStream.Inside { t with cur := t.cur - 2 } :=
    ⟨by dsimp only; omega, by dsimp only; omega⟩
  obtain ⟨u, hu, hw, hcur'⟩ := writeString_spec hin (ascii [']'])
  have hone : (ascii [']']).length = 1 := rfl
  rw [hone] at hcur'
  dsimp only at hcur'
  rw [hback]
  refine ⟨u, hu, hw.bufBegin.trans hbegin, hw.bufEnd.trans hend, hw.inside, by omega, fun i hi => ?_,
    fun hfit => ?_⟩
  · rw [hw.frame i (by dsimp only; omega)]
    exact h.frame i hi
  · have hlen : (x ++ y.take (y.length - 2)).length = x.length + (y.length - 2) := by
      rw [List.length_append, List.length_take_of_le (Nat.sub_le _ _)]
    have hlen' : (x ++ y).length = (x.length + (y.length - 2)) + 2 := by
      rw [List.length_append]
      omega
    have hprefix : (x ++ y).take (x.length + (y.length - 2)) = x ++ y.take (y.length - 2) := by
      rw [List.take_append, List.take_of_length_le (Nat.le_add_right _ _), Nat.add_sub_cancel_left]
    rw [List.length_append, hone, hlen] at hfit
    obtain ⟨htcur, hold, htext⟩ := h.fits (by omega)
    obtain ⟨-, hold', htext'⟩ := hw.fits (by rw [hone]; dsimp only; omega)
    dsimp only at hold' htext'
    have hpos : t.cur - 2 = s.cur + (x.length + (y.length - 2)) := by omega
    have hfirst : bytesAt u.content s.cur (x.length + (y.length - 2)) = x ++ y.take (y.length - 2) := by
      rw [bytesAt_congr fun i _ hi => hold' i (by omega), ← take_bytesAt _ _ (Nat.le_add_right _ 2),
        ← hlen', htext, hprefix]
    rw [List.length_append, hone, hlen]
    refine ⟨by omega, fun i hi => ?_, ?_⟩
    · rw [hold' i (by omega), hold i hi]
    · rw [← bytesAt_append, hfirst, ← hpos]
      exact congrArg _ htext'

theorem two_le_text {is : Items} (h : is.size ≠ 0) (n : ℕ) : 2 ≤ (is.text n).length := by
  cases is with
  | nil => exact absurd rfl h
  | cons i is =>
    rw [Items.text]
    split_ifs
    · decide
    · rw [List.length_append, List.length_append]
      show 2 ≤ i.text.length + 2 + (is.text (n + 1)).length
      omega

theorem text_of_size {is : Items} (h : is.size = 0) (n : ℕ) : is.text n = [] := by
  cases is with
  | nil => rfl
  | cons i is => cases h

theorem writeItems_of_size {is : Items} (h : is.size = 0) (n : ℕ) (s : Log4zStream) :
    writeItems is n s = some s := by
  cases is with
  | nil => rfl
  | cons i is => cases h

mutual

/-- **A value of any kind is written in the part of the stream, and as it is where it fits.** -/
theorem write_spec {s : Log4zStream} (hs : s.Inside) (hroom : s.bufBegin + 2 ≤ s.bufEnd) :
    ∀ i : Item, ∃ t, write i s = some t ∧ Writes 1 s t i.text
  | .data text => by
    obtain ⟨t, ht, hw⟩ := writeData_spec hs text
    exact ⟨t, ht, hw.mono⟩
  | .str x => by
    obtain ⟨t, ht, hw, -⟩ := writeString_spec hs x
    exact ⟨t, ht, hw.mono⟩
  | .pair a b => by
    obtain ⟨t₁, h₁, hw₁, -⟩ := writeString_spec hs (ascii ['p', 'a', 'i', 'r', '('])
    obtain ⟨t₂, h₂, hw₂⟩ := write_spec hw₁.inside (hw₁.room hroom) a
    obtain ⟨t₃, h₃, hw₃, -⟩ := writeString_spec hw₂.inside (ascii [':'])
    have hw := (hw₁.trans hw₂ (Nat.zero_le _)).trans hw₃ (le_refl 1)
    obtain ⟨t₄, h₄, hw₄⟩ := write_spec hw.inside (hw.room hroom) b
    obtain ⟨t₅, h₅, hw₅, -⟩ := writeString_spec hw₄.inside (ascii [')'])
    refine ⟨t₅, ?_, ((hw.trans hw₄ (Nat.zero_le _)).trans hw₅ (le_refl 1)).mono⟩
    simp only [write, h₁, h₂, h₃, h₄, h₅, Option.bind_eq_bind, Option.bind_some]
  | .container name items => by
    obtain ⟨t₁, h₁, hw₁, -⟩ := writeString_spec hs name
    obtain ⟨t₂, h₂, hw₂⟩ := writeData_spec hw₁.inside (some (ascii (Nat.toDigits 10 items.size)))
    obtain ⟨t₃, h₃, hw₃, -⟩ := writeString_spec hw₂.inside (ascii [')', '['])
    have hw := (hw₁.trans hw₂ (Nat.zero_le _)).trans hw₃ (Nat.zero_le _)
    by_cases hsize : items.size = 0
    · obtain ⟨t₄, h₄, hw₄, -⟩ := writeString_spec hw.inside (ascii [']'])
      refine ⟨t₄, ?_, ?_⟩
      · simp only [write, h₁, h₂, h₃, writeItems_of_size hsize, Option.bind_eq_bind, Option.bind_some]
        rw [if_neg (not_not.2 hsize)]
        exact h₄
      · rw [Item.text, text_of_size hsize, List.take_nil, List.append_nil]
        exact (hw.trans hw₄ (Nat.zero_le _)).mono
    · obtain ⟨t₄, h₄, hw₄, hcur⟩ := writeItems_spec hw.inside (hw.room hroom) items 0
      have hprogress := hw.progress
      have hcur' := hcur hsize
      rw [hw.bufEnd] at hcur'
      obtain ⟨t₅, h₅, hw₅⟩ :=
        (hw.trans hw₄ (Nat.zero_le _)).close hs hroom (two_le_text hsize 0) (by omega)
      refine ⟨t₅, ?_, hw₅⟩
      simp only [write, h₁, h₂, h₃, h₄, Option.bind_eq_bind, Option.bind_some]
      rw [if_pos hsize]
      exact h₅

theorem writeItems_spec {s : Log4zStream} (hs : s.Inside) (hroom : s.bufBegin + 2 ≤ s.bufEnd) :
    ∀ (is : Items) (n : ℕ), ∃ t, writeItems is n s = some t ∧ Writes 0 s t (is.text n) ∧
      (is.size ≠ 0 → min (s.cur + 2) s.bufEnd ≤ t.cur)
  | .nil, n => ⟨s, rfl, .refl hs, fun h => absurd rfl h⟩
  | .cons i is, n => by
    rw [writeItems, Items.text]
    split_ifs with hdepth
    · obtain ⟨t, ht, hw, hcur⟩ := writeString_spec hs (ascii ['.', '.', '.', ',', ' '])
      refine ⟨t, ht, hw, fun _ => ?_⟩
      rw [hcur]
      show min (s.cur + 2) s.bufEnd ≤ min (s.cur + 5) s.bufEnd
      omega
    · obtain ⟨t₁, h₁, hw₁⟩ := write_spec hs hroom i
      obtain ⟨t₂, h₂, hw₂, hcur₂⟩ := writeString_spec hw₁.inside (ascii [',', ' '])
      have hw := hw₁.trans hw₂ (show 1 ≤ 2 + 0 by omega)
      have hcur : min (s.cur + 2) s.bufEnd ≤ t₂.cur := by
        have hprogress := hw₁.progress
        have htwo : (ascii [',', ' ']).length = 2 := rfl
        rw [hw₁.bufEnd, htwo] at hcur₂
        omega
      obtain ⟨t₃, h₃, hw₃, hcur₃⟩ := writeItems_spec hw.inside (hw.room hroom) is (n + 1)
      refine ⟨t₃, ?_, hw.trans hw₃ (Nat.zero_le _), fun _ => ?_⟩
      · simp only [h₁, h₂, h₃, Option.bind_eq_bind, Option.bind_some]
      · by_cases hsize : is.size = 0
        · rw [writeItems_of_size hsize, Option.some_inj] at h₃
          exact h₃ ▸ hcur
        · have hcur' := hcur₃ hsize
          rw [hw.bufEnd] at hcur'
          omega

end

end Log4zStream

end SimpleUv.Log4z
