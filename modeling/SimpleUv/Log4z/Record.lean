import SimpleUv.Log4z.Stream
import Mathlib.Data.BitVec
import Mathlib.Data.List.DropRight

/-!
# The records of the log

A record starts with the time and the level, goes on with what the program logs and the place in its source,
and ends with the end of a line. All this is written into an array of `LOG4Z_LOG_BUF_SIZE` bytes, which a
message may be too long for. `LOG_STREAM` is the way of a record up to the queue; accesses are checked, so
`none` is one outside of the array. There is none, and every record ends with the end of a line and the
terminator; one that fits is complete (`logStream_spec`).
-/

namespace SimpleUv.Log4z

/-- `LOG4Z_LOG_BUF_SIZE`. -/
def logBufSize : ℕ := 1024 * 8

/-- `ENUM_LOG_LEVEL`. -/
inductive LogLevel
  | trace
  | debug
  | info
  | warn
  | error
  | alarm
  | fatal
  deriving DecidableEq

/-- `LOG_STRING`. -/
def LogLevel.string : LogLevel → List Char
  | trace => ['L', 'O', 'G', '_', 'T', 'R', 'A', 'C', 'E']
  | debug => ['L', 'O', 'G', '_', 'D', 'E', 'B', 'U', 'G']
  | info => ['L', 'O', 'G', '_', 'I', 'N', 'F', 'O', ' ']
  | warn => ['L', 'O', 'G', '_', 'W', 'A', 'R', 'N', ' ']
  | error => ['L', 'O', 'G', '_', 'E', 'R', 'R', 'O', 'R']
  | alarm => ['L', 'O', 'G', '_', 'A', 'L', 'A', 'R', 'M']
  | fatal => ['L', 'O', 'G', '_', 'F', 'A', 'T', 'A', 'L']

/-- The fields of `tm` that are printed. -/
structure Tm where
  tmYear : BitVec 32
  tmMon : BitVec 32
  tmMday : BitVec 32
  tmHour : BitVec 32
  tmMin : BitVec 32
  tmSec : BitVec 32

/-- The characters of a record: `_content` and `_contentLen`. -/
structure LogText where
  content : ℕ → Byte
  contentLen : ℕ

/-- Digits with zeros in front, up to a width. -/
def pad (width : ℕ) (l : List Char) : List Char := List.replicate (width - l.length) '0' ++ l

/-- The format `%d`, or `%02d` with the width 2. -/
def formatD (width : ℕ) (n : BitVec 32) : List Char :=
  if n.toInt < 0 then '-' :: pad (width - 1) (Nat.toDigits 10 n.toInt.natAbs)
  else pad width (Nat.toDigits 10 n.toInt.natAbs)

/-- The characters in front of a message, in the format `"%d-%02d-%02d %02d:%02d:%02d.%03u %s "`. -/
def stamp (tt : Tm) (precise : BitVec 32) (level : LogLevel) : List Byte :=
  ascii (formatD 0 (tt.tmYear + 1900) ++ '-' :: (formatD 2 (tt.tmMon + 1) ++ '-' :: (formatD 2 tt.tmMday ++
    ' ' :: (formatD 2 tt.tmHour ++ ':' :: (formatD 2 tt.tmMin ++ ':' :: (formatD 2 tt.tmSec ++
    '.' :: (pad 3 (Nat.toDigits 10 precise.toNat) ++ ' ' :: (level.string ++ [' ']))))))))

namespace LogText

/-- Bytes are stored in the array. -/
def store (d : LogText) (pos : ℕ) (bs : List Byte) : Option LogText :=
  if pos + bs.length ≤ logBufSize then some { d with content := patch d.content pos bs } else none

/-- The characters that `makeLogData` writes, with `sprintf`. These are numbers and the name of a level, which no
conversion fails for, so the result is the number of characters and not negative. -/
def make (d : LogText) (tt : Tm) (precise : BitVec 32) (level : LogLevel) : Option LogText := do
  let d ← d.store 0 (stamp tt precise level ++ [0])
  return { d with contentLen := (stamp tt precise level).length }

/-- A stream over the rest of the array. -/
def stream (d : LogText) : Log4zStream :=
  ⟨d.content, d.contentLen, d.contentLen + (logBufSize - d.contentLen), d.contentLen⟩

/-- The record with what was written to its stream: `_contentLen += ss.getCurrentLen()`. -/
def ofStream (d : LogText) (s : Log4zStream) : LogText :=
  ⟨s.content, d.contentLen + (s.cur - s.bufBegin)⟩

/-- `__ss << log`, where `log` may be a chain of values. -/
def writeAll : List Item → Log4zStream → Option Log4zStream
  | [], s => some s
  | i :: is, s => do
    let s ← s.write i
    writeAll is s

/-- The search for the last `'/'` or `'\\'` in the name of a file, from the position `i` down: where the name
without its directories begins. -/
def nameBegin (file : List Byte) : ℕ → ℕ
  | 0 => if file.getD 0 0 ∈ ascii ['\\', '/'] then 1 else 0
  | i + 1 => if file.getD (i + 1) 0 ∈ ascii ['\\', '/'] then i + 2 else nameBegin file i

/-- `ss << " " << pNameBegin << ":" << line`. -/
def suffix (file : List Byte) (line : BitVec 32) : List Item :=
  [.str (ascii [' ']), .str (file.drop (nameBegin file file.length)), .str (ascii [':']),
    .data (some (ascii (formatD 0 line)))]

/-- `_contentLen` with the end of the line, which takes the place of the last characters if need be. -/
def endLen (contentLen : ℕ) : ℕ :=
  let contentLen := if contentLen < 3 then 3 else contentLen
  if contentLen + 3 ≤ logBufSize then contentLen + 3 else contentLen

/-- The end of the line. -/
def terminate (d : LogText) : Option LogText := do
  let contentLen := endLen d.contentLen
  let d ← d.store (contentLen - 1) [0]
  let d ← d.store (contentLen - 2) (ascii ['\n'])
  let d ← d.store (contentLen - 3) (ascii ['\r'])
  return { d with contentLen := contentLen - 1 }

/-- What `pushLog` does to the characters of a record. The place is given if the logger shows it. -/
def push (d : LogText) (place : Option (List Byte × BitVec 32)) : Option LogText := do
  let d ← match place with
    | some (file, line) => (writeAll (suffix file line) d.stream).map d.ofStream
    | none => some d
  d.terminate

/-- `makeLogData`, and the message: `LOG_STREAM` up to its call of `pushLog`. -/
def fill (d : LogText) (tt : Tm) (precise : BitVec 32) (level : LogLevel) (log : List Item) : Option LogText := do
  let d ← d.make tt precise level
  (writeAll log d.stream).map d.ofStream

end LogText

/-- The characters of a record from `LOG_STREAM`, in the array of an object `d` that was used before. -/
def logStream (d : LogText) (tt : Tm) (precise : BitVec 32) (level : LogLevel) (log : List Item)
    (place : Option (List Byte × BitVec 32)) : Option LogText := do
  let d ← d.fill tt precise level log
  d.push place

@[simp] theorem length_ascii (l : List Char) : (ascii l).length = l.length := List.length_map _

theorem length_pad (width : ℕ) (l : List Char) : (pad width l).length = max width l.length := by
  rw [pad, List.length_append, List.length_replicate]
  omega

theorem length_formatD {width : ℕ} (hwidth : width ≤ 11) (n : BitVec 32) :
    0 < (formatD width n).length ∧ (formatD width n).length ≤ 11 := by
  have hpos : 0 < (Nat.toDigits 10 n.toInt.natAbs).length := Nat.length_toDigits_pos
  have hlt : n.toInt.natAbs < 10 ^ 10 := by
    have hle := BitVec.le_toInt n
    have hlt := BitVec.toInt_lt (x := n)
    norm_num at hle hlt ⊢
    omega
  have hlen := (Nat.length_toDigits_le_iff (by norm_num) (by norm_num)).2 hlt
  rw [formatD]
  split_ifs
  · rw [List.length_cons, length_pad]
    omega
  · rw [length_pad]
    omega

theorem length_stamp (tt : Tm) (precise : BitVec 32) (level : LogLevel) :
    3 ≤ (stamp tt precise level).length ∧ (stamp tt precise level).length ≤ 100 := by
  have hyear := length_formatD (Nat.zero_le 11) (tt.tmYear + 1900)
  have h := fun n => length_formatD (show 2 ≤ 11 by norm_num) n
  have hmon := h (tt.tmMon + 1)
  have hday := h tt.tmMday
  have hhour := h tt.tmHour
  have hmin := h tt.tmMin
  have hsec := h tt.tmSec
  have hprecise : (Nat.toDigits 10 precise.toNat).length ≤ 10 :=
    (Nat.length_toDigits_le_iff (by norm_num) (by norm_num)).2 (precise.isLt.trans (by norm_num))
  have hlevel : level.string.length = 9 := by cases level <;> rfl
  simp only [stamp, length_ascii, List.length_append, List.length_cons, List.length_nil, length_pad, hlevel]
  omega

namespace LogText

variable {d : LogText}

theorem store_eq {pos : ℕ} {bs : List Byte} (h : pos + bs.length ≤ logBufSize) :
    d.store pos bs = some { d with content := patch d.content pos bs } := if_pos h

theorem make_spec (d : LogText) (tt : Tm) (precise : BitVec 32) (level : LogLevel) :
    ∃ r, d.make tt precise level = some r ∧ r.contentLen = (stamp tt precise level).length ∧
      bytesAt r.content 0 r.contentLen = stamp tt precise level := by
  have hlen := (length_stamp tt precise level).2
  rw [make]
  generalize stamp tt precise level = x at hlen
  have hstore : d.store 0 (x ++ [0]) = _ := store_eq (by
    rw [List.length_append, List.length_singleton, logBufSize]
    omega)
  rw [hstore]
  exact ⟨_, rfl, rfl, bytesAt_patch_left d.content 0 x [0]⟩

/-- The end of a record. -/
def lineEnd : List Byte := ascii ['\r', '\n'] ++ [0]

theorem endLen_spec {n : ℕ} (h : n ≤ logBufSize) : 3 ≤ endLen n ∧ endLen n ≤ logBufSize ∧
    (3 ≤ n → n + 3 ≤ logBufSize → endLen n = n + 3) := by
  have hsize : logBufSize = 8192 := rfl
  dsimp only [endLen]
  split_ifs <;> omega

theorem patch_singleton (content : ℕ → Byte) (pos i : ℕ) (b : Byte) :
    patch content pos [b] i = if i = pos then b else content i := by
  rw [patch]
  split_ifs with hin heq heq
  · rw [heq, Nat.sub_self]
    rfl
  · rw [List.length_singleton] at hin
    omega
  · rw [List.length_singleton] at hin
    omega
  · rfl

/-- Every record ends with the end of a line, and one with room for it keeps its characters. -/
theorem terminate_spec (h : d.contentLen ≤ logBufSize) : ∃ r, d.terminate = some r ∧
    2 ≤ r.contentLen ∧ r.contentLen < logBufSize ∧ bytesAt r.content (r.contentLen - 2) 3 = lineEnd ∧
    (3 ≤ d.contentLen → d.contentLen + 3 ≤ logBufSize →
      r.contentLen = d.contentLen + 2 ∧ ∀ i < d.contentLen, r.content i = d.content i) := by
  obtain ⟨hge, hle, hfit⟩ := endLen_spec h
  obtain ⟨m, hm⟩ := Nat.exists_eq_add_of_le' hge
  rw [hm] at hle hfit
  have hstore (d : LogText) {bs : List Byte} (hbs : bs.length = 1) {pos : ℕ} (hpos : pos < m + 3) :
      d.store pos bs = some { d with content := patch d.content pos bs } :=
    store_eq (by omega)
  obtain ⟨content, hcontent⟩ : ∃ content, content = patch (patch (patch d.content (m + 2) [0]) (m + 1)
      (ascii ['\n'])) m (ascii ['\r']) := ⟨_, rfl⟩
  have hterminate : d.terminate = some ⟨content, m + 2⟩ := by
    rw [terminate, hm]
    show (LogText.store _ (m + 2) _).bind _ = _
    rw [hstore _ rfl (by omega)]
    show (LogText.store _ (m + 1) _).bind _ = _
    rw [hstore _ rfl (by omega)]
    show (LogText.store _ m _).bind _ = _
    rw [hstore _ rfl (by omega), hcontent]
    rfl
  have hold (i : ℕ) (hi : i < m) : content i = d.content i := by
    rw [hcontent, patch_of_not (.inl hi), patch_of_not (.inl (by omega)), patch_of_not (.inl (by omega))]
  refine ⟨_, hterminate, Nat.le_add_left 2 m, Nat.lt_of_succ_le hle, ?_, fun h3 hroom => ?_⟩
  · show [content m, content (m + 1), content (m + 2)] = lineEnd
    simp only [hcontent, ascii, List.map_cons, List.map_nil, patch_singleton, lineEnd]
    simp
  · obtain rfl : m = d.contentLen := Nat.add_right_cancel (hfit h3 hroom)
    exact ⟨rfl, hold⟩

theorem writeAll_spec (is : List Item) : ∀ {s : Log4zStream}, s.Inside → s.bufBegin + 2 ≤ s.bufEnd →
    ∃ t, writeAll is s = some t ∧ Log4zStream.Writes 1 s t (is.flatMap Item.text) := by
  induction is with
  | nil => exact fun hs _ => ⟨_, rfl, .refl hs⟩
  | cons i is ih =>
    intro s hs hroom
    obtain ⟨t, ht, hw⟩ := Log4zStream.write_spec hs hroom i
    obtain ⟨u, hu, hw'⟩ := ih hw.inside (hw.room hroom)
    refine ⟨u, ?_, hw.trans hw' (Nat.le_add_left 1 _)⟩
    rw [writeAll, ht]
    exact hu

theorem inside_stream (d : LogText) : d.stream.Inside := ⟨le_refl _, Nat.le_add_right _ _⟩

/-- What is written to the rest of the array leaves what is in front of it. -/
theorem ofStream_spec {s : Log4zStream} {x : List Byte} {k : ℕ} (h : d.contentLen ≤ logBufSize)
    (hw : Log4zStream.Writes k d.stream s x) :
    d.contentLen ≤ (d.ofStream s).contentLen ∧ (d.ofStream s).contentLen ≤ logBufSize ∧
    (d.contentLen + x.length + k < logBufSize → (d.ofStream s).contentLen = d.contentLen + x.length ∧
      bytesAt (d.ofStream s).content 0 (d.contentLen + x.length) = bytesAt d.content 0 d.contentLen ++ x) := by
  obtain ⟨hge, hle⟩ := hw.inside
  have hbegin : s.bufBegin = d.contentLen := hw.bufBegin
  have hend : s.bufEnd = logBufSize := hw.bufEnd.trans (Nat.add_sub_cancel' h)
  have hfits := hw.fits
  dsimp only [stream, ofStream] at hfits ⊢
  rw [Nat.add_sub_cancel' h] at hfits
  refine ⟨by omega, by omega, fun hroom => ?_⟩
  obtain ⟨hcur, hold, htext⟩ := hfits hroom
  refine ⟨by omega, ?_⟩
  rw [← bytesAt_append, Nat.zero_add, htext, bytesAt_congr fun i _ hi => hold i (by omega)]

theorem fill_spec (d : LogText) (tt : Tm) (precise : BitVec 32) (level : LogLevel) (log : List Item) :
    ∃ r, d.fill tt precise level log = some r ∧ 3 ≤ r.contentLen ∧ r.contentLen ≤ logBufSize ∧
      ((stamp tt precise level ++ log.flatMap Item.text).length + 1 < logBufSize →
        bytesAt r.content 0 r.contentLen = stamp tt precise level ++ log.flatMap Item.text) := by
  obtain ⟨hpos, hstamp⟩ := length_stamp tt precise level
  have hsize : logBufSize = 8192 := rfl
  obtain ⟨d', hmake, hlen, htext⟩ := make_spec d tt precise level
  obtain ⟨t, ht, hw⟩ := writeAll_spec log (inside_stream d') (by dsimp only [stream]; omega)
  obtain ⟨hge, hle, hfit⟩ := ofStream_spec (by omega) hw
  refine ⟨d'.ofStream t, ?_, by omega, hle, fun hroom => ?_⟩
  · rw [fill, hmake]
    show (writeAll log d'.stream).map d'.ofStream = _
    rw [ht]
    rfl
  · rw [List.length_append] at hroom
    obtain ⟨hlen', htext'⟩ := hfit (by omega)
    rw [hlen', htext', htext]

/-- The suffix is cut at the end of the array, where there may be no room at all. -/
theorem writeAll_suffix (d : LogText) (file : List Byte) (line : BitVec 32) :
    ∃ t, writeAll (suffix file line) d.stream = some t ∧
      Log4zStream.Writes 0 d.stream t ((suffix file line).flatMap Item.text) := by
  obtain ⟨t₁, h₁, hw₁, -⟩ := Log4zStream.writeString_spec (inside_stream d) (ascii [' '])
  obtain ⟨t₂, h₂, hw₂, -⟩ := Log4zStream.writeString_spec hw₁.inside (file.drop (nameBegin file file.length))
  obtain ⟨t₃, h₃, hw₃, -⟩ := Log4zStream.writeString_spec hw₂.inside (ascii [':'])
  obtain ⟨t₄, h₄, hw₄⟩ := Log4zStream.writeData_spec hw₃.inside (some (ascii (formatD 0 line)))
  refine ⟨t₄, ?_, ?_⟩
  · simp only [suffix, writeAll, Log4zStream.write, h₁, h₂, h₃, h₄, Option.bind_eq_bind, Option.bind_some]
  · have hw := ((hw₁.trans hw₂ (Nat.zero_le _)).trans hw₃ (Nat.zero_le _)).trans hw₄ (Nat.zero_le _)
    simpa only [suffix, List.flatMap_cons, List.flatMap_nil, Item.text, List.append_nil, List.append_assoc]
      using hw

theorem rtakeWhile_append {p : Byte → Bool} (l : List Byte) {l' : List Byte} (h : ∀ b ∈ l', p b) :
    (l ++ l').rtakeWhile p = l.rtakeWhile p ++ l' := by
  rw [List.rtakeWhile, List.reverse_append,
    List.takeWhile_append_of_pos fun b hb => h b (List.mem_reverse.1 hb), List.reverse_append,
    List.reverse_reverse, List.rtakeWhile]

/-- What the search finds is the part of the name behind the last slash. -/
theorem drop_nameBegin (file : List Byte) : ∀ i, (∀ b ∈ file.drop (i + 1), b ∉ ascii ['\\', '/']) →
    file.drop (nameBegin file i) = file.rtakeWhile fun b => b ∉ ascii ['\\', '/'] := by
  have hstop (i : ℕ) (hslash : file.getD i 0 ∈ ascii ['\\', '/'])
      (hafter : ∀ b ∈ file.drop (i + 1), b ∉ ascii ['\\', '/']) :
      file.drop (i + 1) = file.rtakeWhile fun b => b ∉ ascii ['\\', '/'] := by
    have hlt : i < file.length := by
      by_contra hge
      rw [List.getD_eq_default _ _ (Nat.le_of_not_lt hge)] at hslash
      exact absurd hslash (by decide)
    rw [List.getD_eq_getElem _ _ hlt] at hslash
    conv_rhs => rw [← List.take_append_drop (i + 1) file,
      rtakeWhile_append _ fun b hb => decide_eq_true (hafter b hb), List.take_succ_eq_append_getElem hlt]
    rw [List.rtakeWhile_concat_neg _ _ _ (by simpa using hslash), List.nil_append]
  have hback (i : ℕ) (hslash : file.getD i 0 ∉ ascii ['\\', '/'])
      (hafter : ∀ b ∈ file.drop (i + 1), b ∉ ascii ['\\', '/']) : ∀ b ∈ file.drop i, b ∉ ascii ['\\', '/'] := by
    intro b hb
    rcases lt_or_ge i file.length with hlt | hge
    · rw [List.getD_eq_getElem _ _ hlt] at hslash
      rw [List.drop_eq_getElem_cons hlt, List.mem_cons] at hb
      exact hb.elim (fun heq => heq ▸ hslash) (hafter b)
    · rw [List.drop_eq_nil_of_le hge] at hb
      exact absurd hb List.not_mem_nil
  intro i
  induction i with
  | zero =>
    intro hafter
    rw [nameBegin]
    split_ifs with hslash
    · exact hstop 0 hslash hafter
    · have hall := hback 0 hslash hafter
      exact (List.rtakeWhile_eq_self_iff.2 fun b hb => decide_eq_true (hall b hb)).symm
  | succ i ih =>
    intro hafter
    rw [nameBegin]
    split_ifs with hslash
    · exact hstop (i + 1) hslash hafter
    · exact ih (hback (i + 1) hslash hafter)

/-- What the stream writes for the place, with the name of the file without its directories. -/
def suffixText : Option (List Byte × BitVec 32) → List Byte
  | some (file, line) => ascii [' '] ++ (file.rtakeWhile fun b => b ∉ ascii ['\\', '/']) ++ ascii [':'] ++
      ascii (formatD 0 line)
  | none => []

theorem text_suffix (file : List Byte) (line : BitVec 32) :
    (suffix file line).flatMap Item.text = suffixText (some (file, line)) := by
  have hname := drop_nameBegin file file.length fun b hb => by
    rw [List.drop_eq_nil_of_le (Nat.le_succ _)] at hb
    exact absurd hb List.not_mem_nil
  simp only [suffix, List.flatMap_cons, List.flatMap_nil, Item.text, Option.getD_some, hname, suffixText,
    List.append_nil, List.append_assoc]

theorem push_spec (h : d.contentLen ≤ logBufSize) (place : Option (List Byte × BitVec 32)) :
    ∃ r, d.push place = some r ∧ 2 ≤ r.contentLen ∧ r.contentLen < logBufSize ∧
      bytesAt r.content (r.contentLen - 2) 3 = lineEnd ∧
      (3 ≤ d.contentLen → d.contentLen + (suffixText place).length + 3 ≤ logBufSize →
        r.contentLen = d.contentLen + (suffixText place).length + 2 ∧
        bytesAt r.content 0 (d.contentLen + (suffixText place).length) =
          bytesAt d.content 0 d.contentLen ++ suffixText place) := by
  -- The record before the end of its line.
  obtain ⟨d', hd', hge, hle, hfit⟩ : ∃ d' : LogText, d.push place = d'.terminate ∧
      d.contentLen ≤ d'.contentLen ∧ d'.contentLen ≤ logBufSize ∧
      (d.contentLen + (suffixText place).length < logBufSize →
        d'.contentLen = d.contentLen + (suffixText place).length ∧
        bytesAt d'.content 0 (d.contentLen + (suffixText place).length) =
          bytesAt d.content 0 d.contentLen ++ suffixText place) := by
    cases place with
    | none => exact ⟨d, rfl, le_refl _, h, fun _ => ⟨rfl, (List.append_nil _).symm⟩⟩
    | some place =>
      obtain ⟨file, line⟩ := place
      obtain ⟨t, ht, hw⟩ := writeAll_suffix d file line
      rw [text_suffix] at hw
      refine ⟨d.ofStream t, ?_, ofStream_spec h hw⟩
      rw [push]
      dsimp only
      rw [ht]
      rfl
  obtain ⟨r, hr, htwo, hlt, hend, hkeep⟩ := terminate_spec hle
  refine ⟨r, hd'.trans hr, htwo, hlt, hend, fun h3 hroom => ?_⟩
  obtain ⟨hlen, htext⟩ := hfit (by omega)
  obtain ⟨hlen', hold⟩ := hkeep (by omega) (by omega)
  refine ⟨by rw [hlen', hlen], ?_⟩
  rw [← htext]
  exact bytesAt_congr fun i _ hi => hold i (by omega)

end LogText

/-- The text of a record that has room for it. -/
def recordText (tt : Tm) (precise : BitVec 32) (level : LogLevel) (log : List Item)
    (place : Option (List Byte × BitVec 32)) : List Byte :=
  stamp tt precise level ++ log.flatMap Item.text ++ LogText.suffixText place

/-- **Whatever is logged, no access is outside of the array, and the record ends with the end of a line and the
terminator. A text that fits with them is in the record as it is.** -/
theorem logStream_spec (d : LogText) (tt : Tm) (precise : BitVec 32) (level : LogLevel) (log : List Item)
    (place : Option (List Byte × BitVec 32)) : ∃ r, logStream d tt precise level log place = some r ∧
    2 ≤ r.contentLen ∧ r.contentLen < logBufSize ∧
    bytesAt r.content (r.contentLen - 2) 3 = ascii ['\r', '\n'] ++ [0] ∧
    ((recordText tt precise level log place).length + 3 ≤ logBufSize →
      bytesAt r.content 0 r.contentLen = recordText tt precise level log place ++ ascii ['\r', '\n']) := by
  have hsize : logBufSize = 8192 := rfl
  obtain ⟨d', hfill, hge, hle, hfit⟩ := LogText.fill_spec d tt precise level log
  obtain ⟨r, hr, htwo, hlt, hend, hkeep⟩ := LogText.push_spec hle place
  refine ⟨r, ?_, htwo, hlt, hend, fun hroom => ?_⟩
  · rw [logStream, hfill]
    exact hr
  · rw [recordText, List.length_append] at hroom
    have htext := hfit (by omega)
    have hlen := congrArg List.length htext
    rw [length_bytesAt] at hlen
    obtain ⟨hlen', htext'⟩ := hkeep hge (by omega)
    rw [hlen', Nat.add_sub_cancel] at hend
    have hline : bytesAt r.content (d'.contentLen + (LogText.suffixText place).length) 2 =
        ascii ['\r', '\n'] := by
      rw [← take_bytesAt _ _ (Nat.le_succ 2), hend]
      rfl
    rw [hlen', ← bytesAt_append, Nat.zero_add, hline, htext', htext, recordText]

end SimpleUv.Log4z
