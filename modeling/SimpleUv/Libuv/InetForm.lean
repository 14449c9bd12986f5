import SimpleUv.Libuv.InetPton

/-!
# The texts of addresses of sixteen bytes

A `Part` of a text is a sequence of groups of hexadecimal digits, the last of which may be a dotted quad in
place of two groups. A text, `Form`, is one part for sixteen bytes, or a `::` with groups in front of it and
a part behind it for less than sixteen bytes; the `::` stands for the zeros that are missing.
-/

namespace SimpleUv.Libuv

open Foundations Pton6

/-- One to four hexadecimal digits. -/
structure Group where
  digits : List Char
  ne_nil : digits ≠ []
  length_le : digits.length ≤ 4
  hex : ∀ ch ∈ digits, (xdigit ch).isSome

/-- The two bytes of a group. -/
def Group.bytes (g : Group) : List Byte := word (value g.digits)

/-- The groups with a colon behind each. -/
def groupsText (gs : List Group) : List Char := gs.flatMap fun g => g.digits ++ [':']

/-- The bytes of groups. -/
def groupsBytes (gs : List Group) : List Byte := gs.flatMap Group.bytes

/-- What a text can end with. -/
inductive Last
  | group (g : Group)
  | quad (a : List.Vector Byte 4)

/-- The characters at the end. -/
def Last.text : Last → List Char
  | group g => g.digits
  | quad a => formatQuad a.toList

/-- The bytes at the end. -/
def Last.bytes : Last → List Byte
  | group g => g.bytes
  | quad a => a.toList

/-- A sequence of groups, the last of which may be a quad. -/
structure Part where
  groups : List Group
  last : Last

namespace Part

/-- The characters of a part. -/
def text (p : Part) : List Char := groupsText p.groups ++ p.last.text

/-- The bytes of a part. -/
def bytes (p : Part) : List Byte := groupsBytes p.groups ++ p.last.bytes

/-- The characters of what stands behind the `::`, if anything does. -/
def textOf (right : Option Part) : List Char := right.elim [] text

/-- The bytes of what stands behind the `::`. -/
def bytesOf (right : Option Part) : List Byte := right.elim [] bytes

end Part

/-- The text of an address, without or with a `::`. -/
inductive Form
  | full (p : Part) (h : p.bytes.length = endp)
  | short (left : List Group) (right : Option Part)
      (h : (groupsBytes left ++ Part.bytesOf right).length < endp)

namespace Form

/-- The characters of an address. -/
def text : Form → List Char
  | full p _ => p.text
  | short [] right _ => ':' :: ':' :: Part.textOf right
  | short left right _ => groupsText left ++ ':' :: Part.textOf right

/-- The bytes of an address. -/
def bytes : Form → List Byte
  | full p _ => p.bytes
  | short left right _ => spread (groupsBytes left).length (groupsBytes left ++ Part.bytesOf right)

end Form

theorem groupsText_cons (g : Group) (gs : List Group) :
    groupsText (g :: gs) = g.digits ++ ':' :: groupsText gs := by
  rw [groupsText, List.flatMap_cons, List.append_assoc]
  rfl

theorem groupsBytes_cons (g : Group) (gs : List Group) :
    groupsBytes (g :: gs) = g.bytes ++ groupsBytes gs := List.flatMap_cons

theorem Group.length_bytes (g : Group) : g.bytes.length = 2 := rfl

theorem length_groupsBytes (gs : List Group) : (groupsBytes gs).length = 2 * gs.length := by
  induction gs with
  | nil => rfl
  | cons g gs ih =>
    rw [groupsBytes_cons, List.length_append, ih, g.length_bytes, List.length_cons]
    omega

theorem length_groupsText (gs : List Group) : (groupsText gs).length ≤ 5 * gs.length := by
  induction gs with
  | nil => exact le_rfl
  | cons g gs ih =>
    have hg := g.length_le
    rw [groupsText_cons, List.length_append, List.length_cons, List.length_cons]
    omega

/-- A text begins with a hexadecimal digit. -/
def Begins (text : List Char) : Prop := ∃ ch rest, text = ch :: rest ∧ (xdigit ch).isSome

theorem Begins.append {l : List Char} (h : Begins l) (r : List Char) : Begins (l ++ r) := by
  obtain ⟨ch, rest, rfl, hch⟩ := h
  exact ⟨ch, rest ++ r, rfl, hch⟩

theorem Begins.head_ne {text rest : List Char} (h : Begins text) : text ≠ ':' :: rest := by
  rintro rfl
  obtain ⟨ch, rest', hch, hx⟩ := h
  rw [← (List.cons.inj hch).1] at hx
  exact absurd hx (by decide)

theorem Group.begins (g : Group) : Begins g.digits := by
  obtain ⟨ch, rest, h⟩ := List.exists_cons_of_ne_nil g.ne_nil
  exact ⟨ch, rest, h, g.hex ch (h ▸ List.mem_cons_self)⟩

theorem begins_groupsText {gs : List Group} (h : gs ≠ []) : Begins (groupsText gs) := by
  obtain ⟨g, gs, rfl⟩ := List.exists_cons_of_ne_nil h
  rw [groupsText_cons]
  exact g.begins.append _

theorem hex_digitChar {d : ℕ} (hd : d < 16) : xdigit d.digitChar = some d := by
  have h : ∀ e < 16, xdigit e.digitChar = some e := by decide
  exact h d hd

/-- A number in decimal or hexadecimal digits is a string of hexadecimal digits. -/
theorem hex_toDigits {b : ℕ} (hb : 1 < b) (hb' : b ≤ 16) (n : ℕ) :
    ∀ ch ∈ Nat.toDigits b n, (xdigit ch).isSome := by
  obtain ⟨ds, hds, rfl⟩ := exists_proper hb n
  intro ch hch
  rw [hds.toDigits_numeral hb] at hch
  obtain ⟨d, hd, rfl⟩ := List.mem_map.1 hch
  rw [hex_digitChar ((hds.lt d hd).trans_le hb')]
  rfl

/-- The digits of an octet, as they stand in a quad. -/
def octet (b : Byte) : Group where
  digits := formatU b
  ne_nil := Nat.toDigits_ne_nil
  length_le := (length_formatU b).trans (Nat.le_succ 3)
  hex := hex_toDigits (by norm_num) (by norm_num) b.toNat

theorem Last.begins (l : Last) : Begins l.text := by
  cases l with
  | group g => exact g.begins
  | quad a => exact (octet (a.toList.getD 0 0)).begins.append _

theorem Part.begins (p : Part) : Begins p.text := by
  obtain ⟨gs, last⟩ := p
  by_cases h : gs = []
  · subst h
    exact last.begins
  · exact (begins_groupsText h).append _

/-- The address `a` is found from a state with the stored bytes `out`, where `text` is still to be read. -/
def Finds (out : List Byte) (colonp : Option ℕ) (text : List Char) (a : List Byte) : Prop :=
  match colonp with
  | some c => ∃ p : Part, p.text = text ∧ (out ++ p.bytes).length < endp ∧ a = spread c (out ++ p.bytes)
  | none =>
    (∃ p : Part, p.text = text ∧ (out ++ p.bytes).length = endp ∧ a = out ++ p.bytes) ∨
      ∃ left right, groupsText left ++ ':' :: Part.textOf right = text ∧
        (out ++ (groupsBytes left ++ Part.bytesOf right)).length < endp ∧
        a = spread (out ++ groupsBytes left).length (out ++ (groupsBytes left ++ Part.bytesOf right))

theorem Finds.group {out : List Byte} {colonp : Option ℕ} {text : List Char} {a : List Byte} (g : Group)
    (h : Finds (out ++ g.bytes) colonp text a) : Finds out colonp (g.digits ++ ':' :: text) a := by
  have hpart : ∀ p : Part, (⟨g :: p.groups, p.last⟩ : Part).text = g.digits ++ ':' :: p.text ∧
      out ++ (⟨g :: p.groups, p.last⟩ : Part).bytes = out ++ g.bytes ++ p.bytes := by
    refine fun p => ⟨?_, ?_⟩
    · rw [Part.text, groupsText_cons, List.append_assoc]
      rfl
    · rw [Part.bytes, groupsBytes_cons, List.append_assoc, List.append_assoc]
      rfl
  cases colonp with
  | some c =>
    obtain ⟨p, rfl, hlen, rfl⟩ := h
    obtain ⟨htext, hbytes⟩ := hpart p
    rw [← hbytes] at hlen
    exact ⟨_, htext, hlen, by rw [hbytes]⟩
  | none =>
    rcases h with ⟨p, rfl, hlen, rfl⟩ | ⟨left, right, rfl, hlen, rfl⟩
    · obtain ⟨htext, hbytes⟩ := hpart p
      rw [← hbytes] at hlen
      exact .inl ⟨_, htext, hlen, hbytes.symm⟩
    · refine .inr ⟨g :: left, right, ?_, ?_, ?_⟩
      · rw [groupsText_cons, List.append_assoc]
        rfl
      · rwa [groupsBytes_cons, List.append_assoc g.bytes, ← List.append_assoc out]
      · rw [groupsBytes_cons, List.append_assoc g.bytes, ← List.append_assoc out, ← List.append_assoc out]

/-- What is found when the last part of the text is stored. -/
theorem complete_spec {out : List Byte} {colonp : Option ℕ} (p : Part)
    (hlen : (out ++ p.bytes).length ≤ endp) :
    complete (out ++ p.bytes) colonp = .error .EINVAL ∨
      ∃ a, complete (out ++ p.bytes) colonp = .ok a ∧ Finds out colonp p.text a := by
  cases colonp with
  | some c =>
    dsimp only [complete]
    split_ifs with h
    · exact .inl rfl
    · exact .inr ⟨_, rfl, p, rfl, lt_of_le_of_ne hlen h, rfl⟩
  | none =>
    dsimp only [complete]
    split_ifs with h
    · exact .inr ⟨_, rfl, .inl ⟨p, rfl, h, rfl⟩⟩
    · exact .inl rfl

/-- The loop and what follows it. -/
def run (src : List Char) (s : Pton6) : Except Failure (List Byte) := loop src s >>= finish

section Run

variable {out : List Byte} {colonp : Option ℕ} {tok src : List Char}

/-- The quad at the end is stored. -/
theorem run_quad {a : List Byte} (hquad : inetPton4 (tok ++ '.' :: src) = .ok a) (ha : a.length = 4)
    (hlen : (out ++ a).length ≤ endp) (hc : ∀ c ∈ colonp, c ≤ out.length) :
    run ('.' :: src) (state out colonp tok ('.' :: src)) = complete (out ++ a) colonp := by
  have hsum : out.length + 4 = (out ++ a).length := by rw [List.length_append, ha]
  have hstore : store (out ++ List.replicate (endp - out.length) 0) out.length a = _ :=
    store_append (List.length_append ▸ hlen)
  rw [run, loop_dot, if_pos (hsum ▸ hlen), hquad]
  show (store (out ++ List.replicate (endp - out.length) 0) out.length a >>= _) >>= finish = _
  rw [hstore]
  refine copy_eq rfl hsum hlen fun c hcol => ?_
  exact (hc c hcol).trans (List.length_append ▸ Nat.le_add_right _ _)

theorem run_dot (hc : ∀ c ∈ colonp, c ≤ out.length) :
    run ('.' :: src) (state out colonp tok ('.' :: src)) = .error .EINVAL ∨
      ∃ a : List.Vector Byte 4, formatQuad a.toList = tok ++ '.' :: src ∧
        (out ++ a.toList).length ≤ endp ∧
        run ('.' :: src) (state out colonp tok ('.' :: src)) = complete (out ++ a.toList) colonp := by
  by_cases hroom : out.length + 4 ≤ endp
  · rcases inetPton4_spec (tok ++ '.' :: src) with h | ⟨a, h, ha, htext⟩
    · exact .inl (by rw [run, loop_dot, if_pos hroom, h]; rfl)
    · have hlen : (out ++ a).length ≤ endp := by rwa [List.length_append, ha]
      exact .inr ⟨⟨a, ha⟩, htext.symm, hlen, run_quad h ha hlen hc⟩
  · exact .inl (by rw [run, loop_dot, if_neg hroom]; rfl)

/-- The end of the string behind a group. -/
theorem run_nil (g : Group) (hc : ∀ c ∈ colonp, c ≤ out.length) :
    run [] (state out colonp g.digits []) =
      if out.length + 2 > endp then .error .EINVAL else complete (out ++ g.bytes) colonp := by
  have hlen : g.digits.length ≠ 0 := fun h => g.ne_nil (List.eq_nil_of_length_eq_zero h)
  have hpush : (state out colonp g.digits []).push = if out.length + 2 > endp then .error .EINVAL
      else .ok { state (out ++ g.bytes) colonp g.digits [] with val := value g.digits } := push_eq rfl rfl
  show finish (state out colonp g.digits []) = _
  rw [finish_of_ne hlen, hpush]
  split_ifs with h
  · rfl
  · refine copy_eq rfl rfl ?_ fun c hcol => ?_
    · rw [List.length_append]
      exact Nat.le_of_not_lt h
    · exact (hc c hcol).trans (List.length_append ▸ Nat.le_add_right _ _)

/-- The end of the string behind a `::`. -/
theorem run_colons_nil (hlen : out.length ≤ endp) :
    run [] (state out (some out.length) [] []) = complete out (some out.length) := by
  have hcopy : copy (state out (some out.length) [] []) = complete out (some out.length) :=
    copy_eq rfl rfl hlen fun c h => (Option.some.inj h).ge
  exact hcopy

/-- What the rest of the string is read as, from any state of the loop. -/
theorem run_spec (htok : tok.length ≤ 4) (hhex : ∀ ch ∈ tok, (xdigit ch).isSome) (hout : out.length ≤ endp)
    (hc : ∀ c ∈ colonp, c ≤ out.length) (hne : tok ++ src ≠ []) :
    run src (state out colonp tok src) = .error .EINVAL ∨
      ∃ a, run src (state out colonp tok src) = .ok a ∧ Finds out colonp (tok ++ src) a := by
  have hempty : ([] : List Char).length ≤ 4 := Nat.zero_le 4
  have hnone : ∀ ch ∈ ([] : List Char), (xdigit ch).isSome := fun ch h => absurd h List.not_mem_nil
  induction src generalizing out colonp tok with
  | nil =>
    rw [List.append_nil] at hne ⊢
    let g : Group := ⟨tok, hne, htok, hhex⟩
    have hrun : run [] (state out colonp tok []) = _ := run_nil g hc
    rw [hrun]
    split_ifs with hroom
    · exact .inl rfl
    · refine complete_spec ⟨[], .group g⟩ ?_
      show (out ++ g.bytes).length ≤ endp
      rw [List.length_append]
      exact Nat.le_of_not_lt hroom
  | cons ch src ih =>
    cases hx : xdigit ch with
    | some d =>
      rw [run, loop_xdigit hx]
      split_ifs with hlong
      · exact .inl rfl
      · have happ : tok ++ ch :: src = tok ++ [ch] ++ src := by rw [List.append_assoc]; rfl
        have hhex' : ∀ e ∈ tok ++ [ch], (xdigit e).isSome := by
          intro e he
          rcases List.mem_append.1 he with he | he
          · exact hhex e he
          · rw [List.mem_singleton.1 he, hx]
            rfl
        rw [happ] at hne ⊢
        refine ih ?_ hhex' hout hc hne
        rw [List.length_append]
        exact Nat.le_of_not_lt hlong
    | none =>
      by_cases hcolon : ch = ':'
      · subst hcolon
        by_cases hnil : tok = []
        · -- The second colon of a `::`.
          subst hnil
          cases colonp with
          | some c => exact .inl rfl
          | none =>
            rw [run, loop_colon_nil rfl]
            by_cases hsrc : src = []
            · subst hsrc
              have hcolons := run_colons_nil hout
              rw [run] at hcolons
              rw [hcolons]
              dsimp only [complete]
              split_ifs with hfull
              · exact .inl rfl
              · refine .inr ⟨_, rfl, .inr ⟨[], none, rfl, ?_, ?_⟩⟩
                · simpa [groupsBytes, Part.bytesOf] using lt_of_le_of_ne hout hfull
                · simp [groupsBytes, Part.bytesOf]
            · rcases ih hempty hnone hout (fun c h => (Option.some.inj h).ge) hsrc with h | ⟨a, h, p, htext, hlen, ha⟩
              · exact .inl h
              · refine .inr ⟨a, h, .inr ⟨[], some p, ?_, hlen, ?_⟩⟩
                · exact congrArg (':' :: ·) htext
                · rw [ha]
                  simp [groupsBytes, Part.bytesOf]
        · -- The colon behind a group.
          by_cases hsrc : src = []
          · subst hsrc
            exact .inl (by rw [run, loop_colon_end hnil]; rfl)
          · rw [run, loop_colon hnil hsrc]
            split_ifs with hroom
            · exact .inl rfl
            · let g : Group := ⟨tok, hnil, htok, hhex⟩
              have hlen : (out ++ g.bytes).length ≤ endp := by
                rw [List.length_append]
                exact Nat.le_of_not_lt hroom
              have hc' : ∀ c ∈ colonp, c ≤ (out ++ g.bytes).length := fun c h =>
                (hc c h).trans (List.length_append ▸ Nat.le_add_right _ _)
              rcases ih hempty hnone hlen hc' hsrc with h | ⟨a, h, ha⟩
              · exact .inl h
              · exact .inr ⟨a, h, ha.group g⟩
      · by_cases hdot : ch = '.'
        · subst hdot
          rcases run_dot hc with h | ⟨a, htext, hlen, h⟩
          · exact .inl h
          · rw [h, ← htext]
            exact complete_spec ⟨[], .quad a⟩ hlen
        · exact .inl (by rw [run, loop_other hx hcolon hdot]; rfl)

/-- Digits are read, four at most. -/
theorem loop_digits {ds : List Char} (hex : ∀ ch ∈ ds, (xdigit ch).isSome)
    (hlen : (tok ++ ds).length ≤ 4) :
    loop (ds ++ src) (state out colonp tok (ds ++ src)) = loop src (state out colonp (tok ++ ds) src) := by
  induction ds generalizing tok with
  | nil => rw [List.append_nil, List.nil_append]
  | cons ch ds ih =>
    obtain ⟨d, hd⟩ := Option.isSome_iff_exists.1 (hex ch List.mem_cons_self)
    have happ : tok ++ ch :: ds = tok ++ [ch] ++ ds := by rw [List.append_assoc]; rfl
    rw [happ] at hlen ⊢
    have hroom : ¬4 < tok.length + 1 := by
      rw [List.length_append, List.length_append, List.length_singleton] at hlen
      omega
    rw [List.cons_append, loop_xdigit hd, if_neg hroom]
    exact ih (fun e he => hex e (List.mem_cons_of_mem ch he)) hlen

theorem loop_group (g : Group) :
    loop (g.digits ++ src) (state out colonp [] (g.digits ++ src)) =
      loop src (state out colonp g.digits src) := loop_digits g.hex g.length_le

theorem loop_groups {gs : List Group} (hsrc : src ≠ []) (hlen : (out ++ groupsBytes gs).length ≤ endp) :
    loop (groupsText gs ++ src) (state out colonp [] (groupsText gs ++ src)) =
      loop src (state (out ++ groupsBytes gs) colonp [] src) := by
  induction gs generalizing out with
  | nil => rw [groupsBytes, List.flatMap_nil, List.append_nil]; rfl
  | cons g gs ih =>
    rw [groupsBytes_cons, ← List.append_assoc] at hlen ⊢
    have hne : groupsText gs ++ src ≠ [] := List.append_ne_nil_of_right_ne_nil _ hsrc
    have hroom : ¬out.length + 2 > endp := by
      rw [List.length_append, List.length_append, g.length_bytes] at hlen
      omega
    rw [groupsText_cons, List.append_assoc, loop_group, List.cons_append, loop_colon g.ne_nil hne,
      if_neg hroom]
    exact ih hlen

theorem run_last (l : Last) (hc : ∀ c ∈ colonp, c ≤ out.length) (hlen : (out ++ l.bytes).length ≤ endp) :
    run l.text (state out colonp [] l.text) = complete (out ++ l.bytes) colonp := by
  cases l with
  | group g =>
    have hroom : ¬out.length + 2 > endp := by
      rw [List.length_append, Last.bytes, g.length_bytes] at hlen
      omega
    have hgroup : loop (g.digits ++ []) (state out colonp [] (g.digits ++ [])) = _ := loop_group g
    have hnil := run_nil g hc
    rw [List.append_nil] at hgroup
    rw [if_neg hroom] at hnil
    rw [run, Last.text, hgroup]
    exact hnil
  | quad a =>
    rw [run, Last.text]
    exact (congrArg (· >>= finish) (loop_group (octet (a.toList.getD 0 0)))).trans
      (run_quad (inetPton4_formatQuad a.toList_length) a.toList_length hlen hc)

/-- The last part of a text is read. -/
theorem run_part (p : Part) (hc : ∀ c ∈ colonp, c ≤ out.length) (hlen : (out ++ p.bytes).length ≤ endp) :
    run p.text (state out colonp [] p.text) = complete (out ++ p.bytes) colonp := by
  rw [Part.bytes, ← List.append_assoc] at hlen ⊢
  have hle : (out ++ groupsBytes p.groups).length ≤ endp := by
    rw [List.length_append] at hlen
    omega
  have hc' : ∀ c ∈ colonp, c ≤ (out ++ groupsBytes p.groups).length := fun c h =>
    (hc c h).trans (List.length_append ▸ Nat.le_add_right _ _)
  obtain ⟨ch, rest, htext, -⟩ := p.last.begins
  rw [run, Part.text, loop_groups (htext ▸ List.cons_ne_nil ch rest) hle]
  exact run_last p.last hc' hlen

/-- The second colon of a `::` and what follows it. -/
theorem run_colons (right : Option Part) (hlen : (out ++ Part.bytesOf right).length < endp) :
    run (':' :: Part.textOf right) (state out none [] (':' :: Part.textOf right)) =
      .ok (spread out.length (out ++ Part.bytesOf right)) := by
  have hle : out.length ≤ endp := by
    rw [List.length_append] at hlen
    omega
  rw [run, loop_colon_nil rfl]
  cases right with
  | none =>
    have hbytes : out ++ Part.bytesOf none = out := List.append_nil out
    rw [hbytes] at hlen ⊢
    exact (run_colons_nil hle).trans (if_neg hlen.ne)
  | some p => exact (run_part p (fun c h => (Option.some.inj h).ge) hlen.le).trans (if_neg hlen.ne)

end Run

/-- A string that does not begin with a colon is read from its first character. -/
theorem inetPton6_of_ne {src : List Char} (h : ∀ rest, src ≠ ':' :: rest) :
    inetPton6 src = run src (start src) := by
  cases src with
  | nil => rfl
  | cons ch src =>
    have hch : ch ≠ ':' := fun hch => h src (hch ▸ rfl)
    unfold inetPton6
    split
    · next hsrc => exact absurd (List.cons.inj hsrc).1 hch
    · next hsrc => exact absurd (List.cons.inj hsrc).1 hch
    · rfl

/-- Every text is read. -/
theorem inetPton6_text (f : Form) : inetPton6 f.text = .ok f.bytes := by
  have hnone : ∀ c ∈ (none : Option ℕ), c ≤ ([] : List Byte).length := fun c h => absurd h (by simp)
  cases f with
  | full p h =>
    have hrun : run p.text (state [] none [] p.text) = complete p.bytes none := run_part p hnone h.le
    rw [Form.text, inetPton6_of_ne fun rest => p.begins.head_ne]
    exact hrun.trans (if_pos h)
  | short left right h =>
    by_cases hleft : left = []
    · subst hleft
      exact run_colons right h
    · have hhead : ∀ rest, groupsText left ++ ':' :: Part.textOf right ≠ ':' :: rest := fun rest =>
        ((begins_groupsText hleft).append _).head_ne
      have hroom : (([] : List Byte) ++ groupsBytes left).length ≤ endp := by
        rw [List.length_append] at h
        rw [List.nil_append]
        omega
      have htext : (Form.short left right h).text = groupsText left ++ ':' :: Part.textOf right := by
        rw [Form.text]
        exact hleft
      rw [htext, inetPton6_of_ne hhead, start_eq, run, loop_groups (List.cons_ne_nil _ _) hroom]
      exact run_colons right h

/-- What is found from the first state. -/
theorem Finds.form {src : List Char} {a : List Byte} (h : Finds [] none src a)
    (hhead : ∀ rest, src ≠ ':' :: rest) : ∃ f : Form, f.text = src ∧ f.bytes = a := by
  rcases h with ⟨p, rfl, hlen, rfl⟩ | ⟨left, right, rfl, hlen, rfl⟩
  · exact ⟨.full p hlen, rfl, rfl⟩
  · have hleft : left ≠ [] := by
      rintro rfl
      exact hhead _ rfl
    refine ⟨.short left right hlen, ?_, rfl⟩
    rw [Form.text]
    exact hleft

/-- The outcomes of `inet_pton6`. -/
theorem inetPton6_spec (src : List Char) :
    inetPton6 src = .error .EINVAL ∨ ∃ f : Form, inetPton6 src = .ok f.bytes ∧ f.text = src := by
  have hnone : ∀ c ∈ (none : Option ℕ), c ≤ ([] : List Byte).length := fun c h => absurd h (by simp)
  have hstart : ∀ rest : List Char, rest ≠ [] → run rest (start rest) = .error .EINVAL ∨
      ∃ a, run rest (start rest) = .ok a ∧ Finds [] none rest a := fun rest hne =>
    run_spec (show ([] : List Char).length ≤ 4 from Nat.zero_le 4)
      (fun e he => absurd he List.not_mem_nil)
      (show ([] : List Byte).length ≤ endp from Nat.zero_le endp) hnone hne
  by_cases hcolon : ∃ rest, src = ':' :: rest
  · obtain ⟨rest, rfl⟩ := hcolon
    by_cases hcolons : ∃ rest', rest = ':' :: rest'
    · -- A `::` in front.
      obtain ⟨rest, rfl⟩ := hcolons
      rcases hstart (':' :: rest) (List.cons_ne_nil _ _) with h | ⟨a, h, ha⟩
      · exact .inl h
      · rcases ha with ⟨p, hp, -⟩ | ⟨left, right, htext, hlen, rfl⟩
        · exact absurd hp p.begins.head_ne
        · have hleft : left = [] := by
            by_contra hleft
            exact ((begins_groupsText hleft).append _).head_ne htext
          subst hleft
          refine .inr ⟨.short [] right hlen, h, congrArg (':' :: ·) htext⟩
    · refine .inl ?_
      unfold inetPton6
      split
      · next hsrc => exact absurd ⟨_, (List.cons.inj hsrc).2⟩ hcolons
      · rfl
      · next h => exact absurd rfl (h rest)
  · have hhead : ∀ rest, src ≠ ':' :: rest := fun rest h => hcolon ⟨rest, h⟩
    rw [inetPton6_of_ne hhead]
    by_cases hnil : src = []
    · subst hnil
      exact .inl rfl
    · rcases hstart src hnil with h | ⟨a, h, ha⟩
      · exact .inl h
      · obtain ⟨f, hf, rfl⟩ := ha.form hhead
        exact .inr ⟨f, h, hf⟩

/-- **`inet_pton6` reads the texts of addresses, and no other string**: it succeeds with the bytes `a`
exactly when the string is a text of `a`, and fails with `UV_EINVAL` otherwise. -/
theorem inetPton6_eq_ok_iff (src : List Char) :
    (∀ a, inetPton6 src = .ok a ↔ ∃ f : Form, f.text = src ∧ f.bytes = a) ∧
      ∀ e, inetPton6 src = .error e → e = .EINVAL := by
  refine ⟨fun a => ⟨fun h => ?_, ?_⟩, fun e h => ?_⟩
  · rcases inetPton6_spec src with h' | ⟨f, h', hf⟩
    · rw [h'] at h
      cases h
    · exact ⟨f, hf, Except.ok.inj (h'.symm.trans h)⟩
  · rintro ⟨f, rfl, rfl⟩
    exact inetPton6_text f
  · rcases inetPton6_spec src with h' | ⟨f, h', -⟩ <;> rw [h'] at h
    · exact (Except.error.inj h).symm
    · cases h

end SimpleUv.Libuv
