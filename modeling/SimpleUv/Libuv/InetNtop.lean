import SimpleUv.Libuv.InetForm

/-!
# Writing addresses of sixteen bytes: `inet_ntop6`

`inet_ntop6` looks for the longest run of words that are zero, and writes `::` for it.
-/

namespace SimpleUv.Libuv

open Foundations Pton6

/-- `UV__INET6_ADDRSTRLEN`. -/
def uvInet6Addrstrlen : ℕ := 46

/-- A run of words that are zero. A run without `base`, -1 in the source, is none. -/
structure ZeroRun where
  base : Option ℕ
  len : ℕ
  deriving DecidableEq

namespace Ntop6

/-- The words of an address: `words[i / 2] |= (src[i] << ((1 - (i % 2)) << 3))`. -/
def words : List Byte → List (BitVec 16)
  | b :: c :: src => (b ++ c) :: words src
  | _ => []

/-- The better one of two runs, the first one if they have the same length. -/
def better (best cur : ZeroRun) : ZeroRun :=
  if cur.base.isSome then
    if best.base = none ∨ cur.len > best.len then cur else best
  else best

/-- The loop that looks for the longest run, from the word `i` on. -/
def search : List (BitVec 16) → ℕ → ZeroRun → ZeroRun → ZeroRun
  | [], _, best, cur => better best cur
  | w :: ws, i, best, cur =>
    if w = 0 then
      if cur.base = none then search ws (i + 1) best ⟨some i, 1⟩
      else search ws (i + 1) best { cur with len := cur.len + 1 }
    else search ws (i + 1) (better best cur) { cur with base := none }

/-- The run that is written as `::`. -/
def bestRun (ws : List (BitVec 16)) : ZeroRun :=
  let best := search ws 0 ⟨none, 0⟩ ⟨none, 0⟩
  if best.base.isSome ∧ best.len < 2 then { best with base := none } else best

/-- Whether the word `i` is in the run. -/
def inside (best : ZeroRun) (i : ℕ) : Prop := ∃ base ∈ best.base, base ≤ i ∧ i < base + best.len

instance (best : ZeroRun) (i : ℕ) : Decidable (inside best i) :=
  inferInstanceAs (Decidable (∃ base ∈ best.base, base ≤ i ∧ i < base + best.len))

/-- Whether the rest of the address, from the word `i` on, is written as a dotted quad. -/
def encapsulated (ws : List (BitVec 16)) (best : ZeroRun) (i : ℕ) : Prop :=
  i = 6 ∧ best.base = some 0 ∧ (best.len = 6 ∨ (best.len = 7 ∧ ws.getD 7 0 ≠ 0x0001) ∨
    (best.len = 5 ∧ ws.getD 5 0 = 0xffff))

instance (ws : List (BitVec 16)) (best : ZeroRun) (i : ℕ) : Decidable (encapsulated ws best i) :=
  inferInstanceAs (Decidable (_ ∧ _ ∧ _))

/-- `sprintf` with the format `%x`. -/
def formatX (w : BitVec 16) : List Char := Nat.toDigits 16 w.toNat

/-- Characters are written to `tmp`, behind the characters `out`; `nul` more are needed. -/
def write (out s : List Char) (nul : ℕ) : Except Failure (List Char) :=
  if out.length + s.length + nul ≤ uvInet6Addrstrlen then .ok (out ++ s) else .error .undefined

/-- A colon is written if `p` holds. -/
def writeColonIf (p : Prop) [Decidable p] (out : List Char) : Except Failure (List Char) :=
  if p then write out [':'] 0 else .ok out

/-- The loop that writes the words, from the word `i` on, behind the characters `out`. -/
def format (src : List Byte) (best : ZeroRun) :
    List (BitVec 16) → ℕ → List Char → Except Failure (List Char)
  | [], _, out => .ok out
  | w :: ws, i, out =>
    if inside best i then do
      let out ← writeColonIf (best.base = some i) out
      format src best ws (i + 1) out
    else do
      let out ← writeColonIf (i ≠ 0) out
      if encapsulated (words src) best i then do
        let quad ← inetNtop4 (src.drop 12) (uvInet6Addrstrlen - out.length)
        return out ++ quad
      else do
        let out ← write out (formatX w) 1
        format src best ws (i + 1) out

end Ntop6

open Ntop6 in
/-- `inet_ntop6`: the characters written to `dst`. -/
def inetNtop6 (src : List Byte) (size : ℕ) : Except Failure (List Char) := do
  let best := bestRun (words src)
  let out ← format src best (words src) 0 []
  let out ← writeColonIf (best.base.map (· + best.len) = some 8) out
  let out ← write out [] 1
  if out.length + 1 > size then .error .ENOSPC else .ok out

namespace Ntop6

/-- The `l` words from the word `b` on are zero. -/
def Zeros (ws : List (BitVec 16)) (b l : ℕ) : Prop := ∀ i, b ≤ i → i < b + l → ws[i]? = some 0

/-- No run of zeros goes across the front of the word `n`. -/
def Edge (ws : List (BitVec 16)) (n : ℕ) : Prop := ∀ b l, Zeros ws b l → b < n → b + l ≤ n

/-- Of the runs of zeros among the first `n` words, `r` is the first one of the longest. -/
def Longest (ws : List (BitVec 16)) (n : ℕ) (r : ZeroRun) : Prop :=
  match r.base with
  | none => ∀ b l, b + l ≤ n → Zeros ws b l → l = 0
  | some base => 0 < r.len ∧ base + r.len ≤ n ∧ Zeros ws base r.len ∧
      ∀ b l, b + l ≤ n → Zeros ws b l → l ≤ r.len ∧ (l = r.len → base ≤ b)

section Search

variable {ws : List (BitVec 16)} {n : ℕ} {best : ZeroRun}

theorem Zeros.le_length {b l : ℕ} (h : Zeros ws b l) (hl : 0 < l) : b + l ≤ ws.length := by
  have hlast := h (b + l - 1) (by omega) (by omega)
  obtain ⟨hlt, -⟩ := List.getElem?_eq_some_iff.1 hlast
  omega

theorem Zeros.concat {b l : ℕ} (h : Zeros ws b l) (hw : ws[b + l]? = some 0) : Zeros ws b (l + 1) := by
  intro i hbi hi
  by_cases hlast : i = b + l
  · rw [hlast, hw]
  · exact h i hbi (by omega)

theorem edge_zero (ws : List (BitVec 16)) : Edge ws 0 := fun b _ _ hb => absurd hb (Nat.not_lt_zero b)

theorem edge_succ (hw : ws[n]? ≠ some 0) : Edge ws (n + 1) := by
  intro b l hz hb
  by_contra hlt
  exact hw (hz n (by omega) (by omega))

theorem longest_zero (ws : List (BitVec 16)) (k : ℕ) : Longest ws 0 ⟨none, k⟩ := fun b l hle _ => by omega

/-- A word that is not zero ends no run. -/
theorem Longest.succ (h : Longest ws n best) (hw : ws[n]? ≠ some 0) : Longest ws (n + 1) best := by
  have hrun : ∀ b l, b + l ≤ n + 1 → Zeros ws b l → b + l ≤ n ∨ l = 0 := by
    intro b l hle hz
    by_contra hnot
    rw [not_or] at hnot
    exact hw (hz n (by omega) (by omega))
  obtain ⟨_ | base, len⟩ := best
  · intro b l hle hz
    rcases hrun b l hle hz with hle | hl
    · exact h b l hle hz
    · exact hl
  · obtain ⟨hpos, hend, hzeros, hmax⟩ := h
    refine ⟨hpos, hend.trans (Nat.le_succ n), hzeros, fun b l hle hz => ?_⟩
    rcases hrun b l hle hz with hle | rfl
    · exact hmax b l hle hz
    · exact ⟨Nat.zero_le _, fun h0 => absurd h0 hpos.ne⟩

/-- A run that ends is compared with the best one in front of it. -/
theorem Longest.better {c l : ℕ} (h : Longest ws c best) (hedge : Edge ws c) (hz : Zeros ws c l)
    (hl : 0 < l) : Longest ws (c + l) (better best ⟨some c, l⟩) := by
  have hcur : ∀ b k, b + k ≤ c + l → Zeros ws b k → b + k ≤ c ∨ c ≤ b ∧ k ≤ l ∧ (k = l → b = c) := by
    intro b k hle hzb
    by_cases hb : b < c
    · exact .inl (hedge b k hzb hb)
    · have hcb : c ≤ b := Nat.le_of_not_lt hb
      exact .inr ⟨hcb, by omega, by omega⟩
  rw [Ntop6.better, if_pos (show (some c).isSome from rfl)]
  obtain ⟨_ | base, len⟩ := best
  · rw [if_pos (.inl rfl)]
    refine ⟨hl, le_rfl, hz, fun b k hle hzb => ?_⟩
    show k ≤ l ∧ (k = l → c ≤ b)
    rcases hcur b k hle hzb with hbk | ⟨hcb, hkl, -⟩
    · have hk : k = 0 := h b k hbk hzb
      exact ⟨by omega, by omega⟩
    · exact ⟨hkl, fun _ => hcb⟩
  · obtain ⟨hpos, hend, hzeros, hmax⟩ := h
    dsimp only at hpos hend hzeros hmax
    by_cases hlonger : l > len
    · rw [if_pos (.inr hlonger)]
      refine ⟨hl, le_rfl, hz, fun b k hle hzb => ?_⟩
      show k ≤ l ∧ (k = l → c ≤ b)
      rcases hcur b k hle hzb with hbk | ⟨hcb, hkl, -⟩
      · have hk := (hmax b k hbk hzb).1
        exact ⟨by omega, by omega⟩
      · exact ⟨hkl, fun _ => hcb⟩
    · have hnot : ¬((some base : Option ℕ) = none ∨ l > len) := fun h =>
        h.elim (Option.some_ne_none base) hlonger
      rw [if_neg hnot]
      refine ⟨hpos, hend.trans (Nat.le_add_right c l), hzeros, fun b k hle hzb => ?_⟩
      show k ≤ len ∧ (k = len → base ≤ b)
      rcases hcur b k hle hzb with hbk | ⟨hcb, hkl, -⟩
      · exact hmax b k hbk hzb
      · exact ⟨by omega, by omega⟩

/-- What the loop keeps in front of the word `n`. -/
def Searching (ws : List (BitVec 16)) (n : ℕ) (best cur : ZeroRun) : Prop :=
  match cur.base with
  | none => Longest ws n best ∧ Edge ws n
  | some c => Longest ws c best ∧ Edge ws c ∧ Zeros ws c cur.len ∧ 0 < cur.len ∧ c + cur.len = n

variable {cur : ZeroRun}

theorem Searching.longest (h : Searching ws n best cur) : Longest ws n (Ntop6.better best cur) := by
  obtain ⟨_ | c, len⟩ := cur
  · exact h.1
  · obtain ⟨hbest, hedge, hz, hl, rfl⟩ := h
    exact hbest.better hedge hz hl

theorem Searching.succ (h : Searching ws n best cur) (hw : ws[n]? ≠ some 0) :
    Searching ws (n + 1) (Ntop6.better best cur) { cur with base := none } :=
  ⟨h.longest.succ hw, edge_succ hw⟩

theorem search_spec {rest : List (BitVec 16)} (hrest : ws.drop n = rest) (hn : n ≤ ws.length)
    (h : Searching ws n best cur) : Longest ws ws.length (search rest n best cur) := by
  induction rest generalizing n best cur with
  | nil =>
    have hlen : n = ws.length := le_antisymm hn (List.drop_eq_nil_iff.1 hrest)
    rw [search, ← hlen]
    exact h.longest
  | cons w rest ih =>
    have hw : ws[n]? = some w := by rw [← List.head?_drop, hrest, List.head?_cons]
    have hlt : n < ws.length := (List.getElem?_eq_some_iff.1 hw).1
    have hrest' : ws.drop (n + 1) = rest := by rw [← List.tail_drop, hrest, List.tail_cons]
    rw [search]
    split_ifs with hzero hnone
    · -- The first word of a run.
      subst hzero
      obtain ⟨_ | c, len⟩ := cur
      · refine ih hrest' hlt ⟨h.1, h.2, fun i hni hi => ?_, Nat.one_pos, rfl⟩
        rw [show i = n by dsimp only at hi; omega, hw]
      · cases hnone
    · subst hzero
      obtain ⟨_ | c, len⟩ := cur
      · exact absurd rfl hnone
      · obtain ⟨hbest, hedge, hz, hl, rfl⟩ := h
        exact ih hrest' hlt ⟨hbest, hedge, hz.concat hw, Nat.succ_pos len, rfl⟩
    · refine ih hrest' hlt (h.succ fun hw' => hzero ?_)
      exact Option.some.inj (hw.symm.trans hw')

/-- The run written as `::` is the first of the longest runs of zeros, if one of two words is among
them. -/
theorem bestRun_spec (ws : List (BitVec 16)) :
    match (bestRun ws).base with
    | none => ∀ b l, Zeros ws b l → l ≤ 1
    | some base => 2 ≤ (bestRun ws).len ∧ base + (bestRun ws).len ≤ ws.length ∧
        Zeros ws base (bestRun ws).len ∧
        ∀ b l, Zeros ws b l → l ≤ (bestRun ws).len ∧ (l = (bestRun ws).len → base ≤ b) := by
  have hlongest : Longest ws ws.length (search ws 0 ⟨none, 0⟩ ⟨none, 0⟩) :=
    search_spec rfl (Nat.zero_le _) ⟨longest_zero ws 0, edge_zero ws⟩
  have hend : ∀ b l, Zeros ws b l → b + l ≤ ws.length ∨ l = 0 := fun b l hz =>
    (Nat.eq_zero_or_pos l).symm.imp_left hz.le_length
  unfold bestRun
  generalize search ws 0 ⟨none, 0⟩ ⟨none, 0⟩ = best at hlongest
  obtain ⟨_ | base, len⟩ := best
  · intro b l hz
    rcases hend b l hz with hle | rfl
    · exact (hlongest b l hle hz).le.trans (Nat.zero_le 1)
    · exact Nat.zero_le 1
  · obtain ⟨hpos, hle, hz, hmax⟩ := hlongest
    dsimp only at hpos hle hz hmax ⊢
    have hall : ∀ b l, Zeros ws b l → l ≤ len ∧ (l = len → base ≤ b) := by
      intro b l hzb
      rcases hend b l hzb with hle | rfl
      · exact hmax b l hle hzb
      · exact ⟨Nat.zero_le _, fun h => absurd h hpos.ne⟩
    by_cases hshort : len < 2
    · rw [if_pos ⟨rfl, hshort⟩]
      exact fun b l hzb => (hall b l hzb).1.trans (Nat.le_of_lt_succ hshort)
    · rw [if_neg fun h => hshort h.2]
      exact ⟨Nat.le_of_not_lt hshort, hle, hz, hall⟩

end Search

/-- A colon, if `p` holds. -/
def colonIf (p : Prop) [Decidable p] : List Char := if p then [':'] else []

/-- The characters that the loop writes, from the word `i` on. -/
def text (src : List Byte) (best : ZeroRun) : List (BitVec 16) → ℕ → List Char
  | [], _ => []
  | w :: ws, i =>
    if inside best i then colonIf (best.base = some i) ++ text src best ws (i + 1)
    else if encapsulated (words src) best i then colonIf (i ≠ 0) ++ formatQuad (src.drop 12)
    else colonIf (i ≠ 0) ++ (formatX w ++ text src best ws (i + 1))

section Text

variable {src : List Byte} {best : ZeroRun} {ws : List (BitVec 16)} {i : ℕ} {out : List Char}

theorem write_eq {s : List Char} {nul : ℕ} (h : (out ++ s).length + nul ≤ uvInet6Addrstrlen) :
    write out s nul = .ok (out ++ s) := if_pos (List.length_append ▸ h)

theorem writeColonIf_eq {p : Prop} [Decidable p] (h : (out ++ colonIf p).length ≤ uvInet6Addrstrlen) :
    writeColonIf p out = .ok (out ++ colonIf p) := by
  rw [writeColonIf, colonIf] at *
  split_ifs at h ⊢
  · exact write_eq h
  · rw [List.append_nil]

/-- Where the characters fit in `tmp`, they are written. -/
theorem format_eq (h : (out ++ text src best ws i).length < uvInet6Addrstrlen) :
    format src best ws i out = .ok (out ++ text src best ws i) := by
  induction ws generalizing i out with
  | nil => rw [text, List.append_nil]; rfl
  | cons w ws ih =>
    have hle : ∀ s t : List Char, (s ++ t).length < uvInet6Addrstrlen → s.length < uvInet6Addrstrlen :=
      fun s t hst => (List.length_append ▸ Nat.le_add_right s.length t.length).trans_lt hst
    rw [text] at h ⊢
    rw [format]
    by_cases hin : inside best i
    · rw [if_pos hin, ← List.append_assoc] at h
      rw [if_pos hin, if_pos hin, writeColonIf_eq (hle _ _ h).le, ← List.append_assoc]
      exact ih h
    · rw [if_neg hin] at h
      rw [if_neg hin, if_neg hin]
      by_cases hquad : encapsulated (words src) best i
      · rw [if_pos hquad, ← List.append_assoc] at h
        have hsize : (formatQuad (src.drop 12)).length <
            uvInet6Addrstrlen - (out ++ colonIf (i ≠ 0)).length := by
          rw [List.length_append] at h
          omega
        rw [if_pos hquad, writeColonIf_eq (hle _ _ h).le]
        show (if encapsulated (words src) best i then _ else _) = _
        rw [if_pos hquad, inetNtop4_eq, if_pos hsize, ← List.append_assoc]
        rfl
      · rw [if_neg hquad, ← List.append_assoc] at h
        rw [if_neg hquad, writeColonIf_eq (hle _ _ h).le]
        show (if encapsulated (words src) best i then _ else _) = _
        rw [← List.append_assoc] at h
        rw [if_neg hquad, write_eq (hle _ _ h), ← List.append_assoc, ← List.append_assoc]
        exact ih h

/-- In the run nothing is written behind its first word. -/
theorem text_inside {l : List (BitVec 16)} {base : ℕ} (hbase : best.base = some base) (hlt : base < i)
    (hend : i + l.length ≤ base + best.len) :
    text src best (l ++ ws) i = text src best ws (i + l.length) := by
  induction l generalizing i with
  | nil => rfl
  | cons w l ih =>
    rw [List.length_cons] at hend ⊢
    have hin : inside best i := ⟨base, hbase, by omega, by omega⟩
    have hne : best.base ≠ some i := fun h => by
      rw [hbase] at h
      exact hlt.ne (Option.some.inj h)
    rw [List.cons_append, text, if_pos hin, colonIf, if_neg hne, List.nil_append, ih (by omega) (by omega)]
    congr 1
    omega

/-- The run is written as one colon. -/
theorem text_run {l : List (BitVec 16)} {base : ℕ} (hbase : best.base = some base)
    (hlen : l.length = best.len) (hpos : 0 < best.len) :
    text src best (l ++ ws) base = ':' :: text src best ws (base + best.len) := by
  obtain ⟨w, l, rfl⟩ := List.exists_cons_of_length_pos (hlen ▸ hpos)
  rw [List.length_cons] at hlen
  have hin : inside best base := ⟨base, hbase, le_rfl, by omega⟩
  have hsum : base + 1 + l.length = base + best.len := by omega
  rw [List.cons_append, text, if_pos hin, colonIf, if_pos hbase,
    text_inside hbase (Nat.lt_add_one base) hsum.le, hsum]
  rfl

/-- A word as a group. -/
def hexGroup (w : BitVec 16) : Group where
  digits := formatX w
  ne_nil := Nat.toDigits_ne_nil
  length_le := (Nat.length_toDigits_le_iff (by norm_num) (by norm_num)).2 w.isLt
  hex := hex_toDigits (by norm_num) (by norm_num) w.toNat

theorem value_formatX (w : BitVec 16) : value (formatX w) = w.toNat := by
  obtain ⟨ds, hds, hval⟩ := exists_proper (show 1 < 16 by norm_num) w.toNat
  have hfilter : ∀ es : List ℕ, (∀ e ∈ es, e < 16) → (es.map Nat.digitChar).filterMap xdigit = es := by
    intro es hes
    rw [List.filterMap_map]
    refine (List.filterMap_congr fun e he => ?_).trans List.filterMap_some
    exact hex_digitChar (hes e he)
  rw [formatX, ← hval, hds.toDigits_numeral (by norm_num), value, hfilter ds hds.lt]

theorem bytes_hexGroup (w : BitVec 16) : (hexGroup w).bytes = word w.toNat := by
  rw [Group.bytes, hexGroup, value_formatX]

/-- Words that are not in the run, nor behind it as a quad, are written as groups with a colon in front. -/
theorem text_words {l : List (BitVec 16)} (hi : i ≠ 0)
    (hout : ∀ j, i ≤ j → j < i + l.length → ¬inside best j ∧ ¬encapsulated (words src) best j) :
    text src best (l ++ ws) i =
      (l.flatMap fun w => ':' :: formatX w) ++ text src best ws (i + l.length) := by
  induction l generalizing i with
  | nil => rfl
  | cons w l ih =>
    rw [List.length_cons] at hout ⊢
    obtain ⟨hin, hquad⟩ := hout i le_rfl (by omega)
    have hsum : i + 1 + l.length = i + (l.length + 1) := by omega
    rw [List.cons_append, text, if_neg hin, if_neg hquad, colonIf, if_pos hi,
      ih (Nat.add_one_ne_zero i) fun j hij hj => hout j (by omega) (by omega), hsum,
      List.flatMap_cons, List.append_assoc]
    rfl

theorem colons_append (l : List (BitVec 16)) (r : List Char) :
    (l.flatMap fun w => ':' :: formatX w) ++ ':' :: r = ':' :: (groupsText (l.map hexGroup) ++ r) := by
  induction l with
  | nil => rfl
  | cons w l ih =>
    rw [List.flatMap_cons, List.append_assoc, ih, List.map_cons, groupsText_cons, List.append_assoc]
    rfl

theorem groupsBytes_map (l : List (BitVec 16)) :
    groupsBytes (l.map hexGroup) = l.flatMap fun w => word w.toNat := by
  rw [groupsBytes, List.flatMap_map]
  exact List.flatMap_congr fun w _ => bytes_hexGroup w

theorem word_append (b c : Byte) : word (b ++ c).toNat = [b, c] := by
  have hval : (b ++ c).toNat = b.toNat * 256 + c.toNat := by
    rw [BitVec.toNat_append, ← Nat.shiftLeft_add_eq_or_of_lt c.isLt, Nat.shiftLeft_eq]
  have hb := b.isLt
  have hc := c.isLt
  rw [word, hval, Nat.shiftRight_eq_div_pow]
  congr 1
  · apply BitVec.eq_of_toNat_eq
    rw [BitVec.toNat_ofNat]
    omega
  · congr 1
    apply BitVec.eq_of_toNat_eq
    rw [BitVec.toNat_ofNat]
    omega

theorem words_spec {n : ℕ} (hsrc : src.length = 2 * n) :
    ((words src).flatMap fun w => word w.toNat) = src ∧ (words src).length = n := by
  induction n generalizing src with
  | zero =>
    obtain rfl := List.eq_nil_of_length_eq_zero hsrc
    exact ⟨rfl, rfl⟩
  | succ n ih =>
    obtain ⟨b, src, rfl⟩ : ∃ b src', src = b :: src' := List.exists_cons_of_length_pos (by omega)
    rw [List.length_cons] at hsrc
    obtain ⟨c, src, rfl⟩ : ∃ c src', src = c :: src' := List.exists_cons_of_length_pos (by omega)
    rw [List.length_cons] at hsrc
    have hlen' : src.length = 2 * n := by omega
    obtain ⟨hbytes, hlen⟩ := ih hlen'
    rw [words, List.flatMap_cons, word_append, hbytes, List.length_cons, hlen]
    exact ⟨rfl, rfl⟩

theorem inside_iff {base : ℕ} (hbase : best.base = some base) :
    inside best i ↔ base ≤ i ∧ i < base + best.len := by
  rw [inside, hbase]
  exact ⟨fun ⟨_, h, hi⟩ => Option.some.inj h ▸ hi, fun hi => ⟨base, rfl, hi⟩⟩

/-- The groups in front of the end of a text. -/
theorem text_groups {l : List (BitVec 16)} (x : BitVec 16) (hi : i ≠ 0)
    (hout : ∀ j, i ≤ j → j < i + (l ++ [x]).length → ¬inside best j ∧ ¬encapsulated (words src) best j) :
    text src best (l ++ [x]) i = ':' :: Part.text ⟨l.map hexGroup, .group (hexGroup x)⟩ := by
  have h : text src best ((l ++ [x]) ++ []) i = _ := text_words hi hout
  rw [List.append_nil, List.flatMap_append, List.flatMap_singleton, text, List.append_nil,
    colons_append] at h
  exact h

/-- What is written without a run. -/
theorem text_full (hbase : best.base = none) {w x : BitVec 16} {l : List (BitVec 16)} :
    text src best (w :: (l ++ [x])) 0 = Part.text ⟨(w :: l).map hexGroup, .group (hexGroup x)⟩ := by
  have hin : ∀ j, ¬inside best j := fun j ⟨_, h, _⟩ => by rw [hbase] at h; cases h
  have hquad : ∀ j, ¬encapsulated (words src) best j := fun j ⟨_, h, _⟩ => by rw [hbase] at h; cases h
  rw [text, if_neg (hin 0), if_neg (hquad 0), colonIf, if_neg (not_not.2 rfl), List.nil_append,
    text_groups x Nat.one_ne_zero fun j _ _ => ⟨hin j, hquad j⟩]
  show formatX w ++ ':' :: _ = groupsText (hexGroup w :: l.map hexGroup) ++ formatX x
  rw [groupsText_cons, List.append_assoc]
  rfl

/-- What is written up to the run and for it. -/
theorem text_left {base : ℕ} {left zs : List (BitVec 16)} (hbase : best.base = some base)
    (hleft : left.length = base) (hzs : zs.length = best.len) (hpos : 0 < best.len) :
    text src best (left ++ (zs ++ ws)) 0 = groupsText (left.map hexGroup) ++
      (colonIf (left = []) ++ text src best ws (base + best.len)) := by
  cases left with
  | nil =>
    obtain rfl : 0 = base := hleft
    exact text_run hbase hzs hpos
  | cons w l =>
    have hout : ∀ j, j < base → ¬inside best j ∧ ¬encapsulated (words src) best j := by
      refine fun j hj => ⟨fun h => ?_, fun h => ?_⟩
      · have := ((inside_iff hbase).1 h).1
        omega
      · have := h.2.1
        rw [hbase, Option.some_inj] at this
        omega
    rw [List.length_cons] at hleft
    have hpos' : 0 < base := by omega
    have hsum : 1 + l.length = base := by omega
    rw [List.cons_append, text, if_neg (hout 0 hpos').1, if_neg (hout 0 hpos').2, colonIf,
      if_neg (not_not.2 rfl), List.nil_append,
      text_words Nat.one_ne_zero fun j _ hj => hout j (by omega), hsum, text_run hbase hzs hpos,
      colons_append, List.map_cons, groupsText_cons, List.append_assoc]
    rfl

/-- What is written behind the run. -/
theorem text_right {base : ℕ} (hbase : best.base = some base) (hpos : 0 < best.len)
    (hlen : ws.length + (base + best.len) = 8)
    (hquad : ∀ l x y, ws = l ++ [x, y] → src.drop 12 = [x, y].flatMap fun w => word w.toNat) :
    ∃ right : Option Part, Part.bytesOf right = (ws.flatMap fun w => word w.toNat) ∧
      (Part.textOf right).length ≤ 5 * ws.length + 5 ∧
      text src best ws (base + best.len) ++ colonIf (best.base.map (· + best.len) = some 8) =
        ':' :: Part.textOf right := by
  have hn : base + best.len ≠ 0 := by omega
  have hend : (best.base.map (· + best.len) = some 8) = (base + best.len = 8) := by
    rw [hbase, Option.map_some, Option.some_inj]
  have hin : ∀ j, base + best.len ≤ j → ¬inside best j := by
    intro j hj h
    have := ((inside_iff hbase).1 h).2
    omega
  simp only [hend]
  by_cases hnil : ws = []
  · subst hnil
    refine ⟨none, rfl, Nat.zero_le _, ?_⟩
    rw [text, colonIf, if_pos (by simpa using hlen)]
    rfl
  · have hpos' := List.length_pos_of_ne_nil hnil
    have hne : base + best.len ≠ 8 := by omega
    rw [colonIf, if_neg hne, List.append_nil]
    by_cases h6 : encapsulated (words src) best 6 ∧ base + best.len ≤ 6
    · -- An encapsulated address, which is written as a quad.
      obtain ⟨henc, hle⟩ := h6
      obtain ⟨l, r, hws, hr⟩ : ∃ l r, ws = l ++ r ∧ r.length = 2 :=
        ⟨ws.take (ws.length - 2), ws.drop (ws.length - 2), (List.take_append_drop _ _).symm, by
          rw [List.length_drop]; omega⟩
      obtain ⟨x, y, rfl⟩ := List.length_eq_two.1 hr
      have hdrop := hquad l x y hws
      subst hws
      rw [List.length_append] at hlen
      have hsum : base + best.len + l.length = 6 := by
        have : [x, y].length = 2 := rfl
        omega
      have hlen4 : (src.drop 12).length = 4 := by rw [hdrop]; rfl
      have hlast : text src best [x, y] 6 = ':' :: formatQuad (src.drop 12) := by
        rw [text, if_neg (hin 6 hle), if_pos henc]
        rfl
      have hlong : (formatQuad (src.drop 12)).length < 16 := (length_formatQuad _).2
      have hgroups := length_groupsText (l.map hexGroup)
      refine ⟨some ⟨l.map hexGroup, .quad ⟨src.drop 12, hlen4⟩⟩, ?_, ?_, ?_⟩
      · rw [List.flatMap_append, ← hdrop, ← groupsBytes_map]
        rfl
      · show (groupsText (l.map hexGroup) ++ formatQuad (src.drop 12)).length ≤ _
        have : [x, y].length = 2 := rfl
        rw [List.length_map] at hgroups
        rw [List.length_append, List.length_append]
        omega
      · rw [text_words hn fun j hj hlt => ⟨hin j hj, fun h => by have := h.1; omega⟩, hsum, hlast,
          colons_append]
        rfl
    · obtain ⟨l, x, rfl⟩ := (List.eq_nil_or_concat' ws).resolve_left hnil
      have hgroups := length_groupsText (l.map hexGroup)
      have hx := (hexGroup x).length_le
      refine ⟨some ⟨l.map hexGroup, .group (hexGroup x)⟩, ?_, ?_, ?_⟩
      · rw [List.flatMap_append, ← groupsBytes_map, List.flatMap_singleton, ← bytes_hexGroup]
        rfl
      · show (groupsText (l.map hexGroup) ++ (hexGroup x).digits).length ≤ _
        rw [List.length_map] at hgroups
        rw [List.length_append, List.length_append, List.length_singleton]
        omega
      · refine text_groups x hn fun j hj _ => ⟨hin j hj, fun h => h6 ?_⟩
        obtain rfl := h.1
        exact ⟨h, hj⟩

theorem length_wordBytes (l : List (BitVec 16)) :
    (l.flatMap fun w => word w.toNat).length = 2 * l.length := by
  induction l with
  | nil => rfl
  | cons w l ih =>
    rw [List.flatMap_cons, List.length_append, ih, length_word, List.length_cons]
    omega

theorem wordBytes_replicate (n : ℕ) :
    ((List.replicate n (0 : BitVec 16)).flatMap fun w => word w.toNat) = List.replicate (2 * n) 0 := by
  induction n with
  | zero => rfl
  | succ n ih =>
    rw [List.replicate_succ, List.flatMap_cons, ih]
    rfl

theorem Zeros.split {b l : ℕ} (h : Zeros ws b l) (hle : b + l ≤ ws.length) :
    ∃ left right, ws = left ++ (List.replicate l 0 ++ right) ∧ left.length = b := by
  have hzs : (ws.drop b).take l = List.replicate l 0 := by
    refine List.ext_getElem? fun i => ?_
    by_cases hi : i < l
    · rw [List.getElem?_take_of_lt hi, List.getElem?_drop, h (b + i) (by omega) (by omega),
        List.getElem?_replicate_of_lt hi]
    · have hlen : (List.replicate l (0 : BitVec 16)).length ≤ i := by rw [List.length_replicate]; omega
      rw [List.getElem?_take_eq_none (by omega), List.getElem?_eq_none hlen]
  refine ⟨ws.take b, (ws.drop b).drop l, ?_, List.length_take_of_le (by omega)⟩
  rw [← hzs, List.take_append_drop, List.take_append_drop]

theorem form_text {left : List Group} {right : Option Part} (h) : (Form.short left right h).text =
    groupsText left ++ (colonIf (left = []) ++ ':' :: Part.textOf right) := by
  cases left with
  | nil => rfl
  | cons g gs => rfl

/-- What is written is a text of the address, of 39 characters at most. -/
theorem text_form (hsrc : src.length = 16) : ∃ f : Form, f.bytes = src ∧ f.text.length ≤ 39 ∧
    text src (bestRun (words src)) (words src) 0 ++
      colonIf ((bestRun (words src)).base.map (· + (bestRun (words src)).len) = some 8) = f.text := by
  obtain ⟨hbytes, hlen⟩ := words_spec (n := 8) hsrc
  have hspec := bestRun_spec (words src)
  generalize bestRun (words src) = best at hspec ⊢
  cases hbase : best.base with
  | none =>
    obtain ⟨w, r, hwr⟩ := List.exists_cons_of_length_eq_add_one hlen
    have hr : r ≠ [] := by
      rintro rfl
      rw [hwr] at hlen
      cases hlen
    obtain ⟨l, x, rfl⟩ := (List.eq_nil_or_concat' r).resolve_left hr
    let p : Part := ⟨(w :: l).map hexGroup, .group (hexGroup x)⟩
    have hp : p.bytes = src := by
      rw [← hbytes, hwr, ← List.cons_append, List.flatMap_append, List.flatMap_singleton,
        ← groupsBytes_map, ← bytes_hexGroup]
      rfl
    refine ⟨.full p (hp ▸ hsrc), hp, ?_, ?_⟩
    · have hgroups := length_groupsText ((w :: l).map hexGroup)
      have hx := (hexGroup x).length_le
      show (groupsText ((w :: l).map hexGroup) ++ (hexGroup x).digits).length ≤ 39
      rw [hwr, List.length_cons, List.length_append, List.length_singleton] at hlen
      rw [List.length_map, List.length_cons] at hgroups
      rw [List.length_append]
      omega
    · rw [hwr, text_full hbase, colonIf, if_neg (by simp), List.append_nil]
      rfl
  | some base =>
    rw [hbase] at hspec
    obtain ⟨htwo, hend, hz, -⟩ := hspec
    obtain ⟨left, right, hws, hleft⟩ := hz.split hend
    rw [hws, List.flatMap_append, List.flatMap_append, wordBytes_replicate, ← groupsBytes_map] at hbytes
    rw [hws, List.length_append, List.length_append, List.length_replicate] at hlen
    have hquad : ∀ l x y, right = l ++ [x, y] → src.drop 12 = [x, y].flatMap fun w => word w.toNat := by
      rintro l x y rfl
      rw [List.length_append] at hlen
      rw [← hbytes, List.flatMap_append, ← List.append_assoc, ← List.append_assoc]
      refine List.drop_left' ?_
      have : [x, y].length = 2 := rfl
      rw [groupsBytes_map, List.length_append, List.length_append, length_wordBytes, length_wordBytes,
        List.length_replicate]
      omega
    obtain ⟨right', hright, hshort, htext⟩ := text_right hbase (by omega) (by omega) hquad
    have hlenL : (groupsBytes (left.map hexGroup)).length = 2 * left.length := by
      rw [groupsBytes_map, length_wordBytes]
    have hlenR : (Part.bytesOf right').length = 2 * right.length := by rw [hright, length_wordBytes]
    have hlt : (groupsBytes (left.map hexGroup) ++ Part.bytesOf right').length < endp := by
      rw [List.length_append, hlenL, hlenR, endp]
      omega
    refine ⟨.short (left.map hexGroup) right' hlt, ?_, ?_, ?_⟩
    · rw [Form.bytes, spread, List.take_left, List.drop_left, ← hbytes, hright]
      congr 3
      rw [← hright, List.length_append, hlenL, hlenR, endp]
      omega
    · have hgroups := length_groupsText (left.map hexGroup)
      rw [form_text, List.length_append, List.length_append, List.length_cons]
      rw [List.length_map] at hgroups
      have hcolon : (colonIf (left.map hexGroup = [])).length ≤ 1 := by
        rw [colonIf]
        split_ifs <;> decide
      omega
    · have hnil : (left.map hexGroup = []) = (left = []) := propext List.map_eq_nil_iff
      rw [hbase] at htext
      rw [hws, text_left hbase hleft List.length_replicate (by omega), List.append_assoc, List.append_assoc,
        htext, form_text]
      simp only [hnil]

end Text

end Ntop6

open Ntop6 in
/-- `inet_ntop6` writes a text of the address, and fails only where `dst` has no room for it. -/
theorem inetNtop6_eq {src : List Byte} (hsrc : src.length = 16) : ∃ f : Form, f.bytes = src ∧
    f.text.length ≤ 39 ∧ ∀ size, inetNtop6 src size =
      if f.text.length + 1 > size then .error .ENOSPC else .ok f.text := by
  obtain ⟨f, hf, hlen, htext⟩ := text_form hsrc
  refine ⟨f, hf, hlen, fun size => ?_⟩
  generalize hbest : bestRun (words src) = best at htext
  have hmax : uvInet6Addrstrlen = 46 := rfl
  have hall : (text src best (words src) 0 ++
      colonIf (best.base.map (· + best.len) = some 8)).length ≤ 39 := htext ▸ hlen
  have hpart : (text src best (words src) 0).length ≤ 39 := by
    rw [List.length_append] at hall
    omega
  have hformat : format src best (words src) 0 [] = .ok (text src best (words src) 0) :=
    format_eq (by rw [List.nil_append]; omega)
  have hcolon := writeColonIf_eq (hall.trans (by omega))
  have hnul : write f.text [] 1 = .ok (f.text ++ []) := write_eq (by rw [List.append_nil]; omega)
  rw [inetNtop6]
  show (format src (bestRun (words src)) (words src) 0 [] >>= _) = _
  rw [hbest, hformat]
  show (writeColonIf (best.base.map (· + best.len) = some 8) (text src best (words src) 0) >>= _) = _
  rw [hcolon, htext]
  show (write f.text [] 1 >>= _) = _
  rw [hnul, List.append_nil]
  rfl

/-- **What `inet_ntop6` writes is read back**: for every address, in at most 39 characters. -/
theorem inetPton6_inetNtop6 (a : List.Vector Byte 16) : ∃ s : List Char, s.length ≤ 39 ∧
    (∀ size, inetNtop6 a.toList size = if s.length + 1 > size then .error .ENOSPC else .ok s) ∧
    inetPton6 s = .ok a.toList := by
  obtain ⟨f, hf, hlen, hsize⟩ := inetNtop6_eq a.toList_length
  exact ⟨f.text, hlen, hsize, hf ▸ inetPton6_text f⟩

example : inetNtop6 [0, 0, 0, 0, 0, 0, 0, 0, 0, 0, 0xff, 0xff, 1, 2, 3, 4] 46 =
    .ok [':', ':', 'f', 'f', 'f', 'f', ':', '1', '.', '2', '.', '3', '.', '4'] := by decide

end SimpleUv.Libuv
