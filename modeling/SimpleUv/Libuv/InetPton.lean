import SimpleUv.Foundations.Numeral
import SimpleUv.Foundations.Overwrite
import SimpleUv.Libuv.Inet
import Mathlib.Data.Vector.Basic

/-!
# Addresses of sixteen bytes: `inet_pton6`

`Pton6` are the variables of `inet_pton6`, with pointers into `tmp` as positions and `curtok` as the rest of
the string it points to. A text is a sequence of groups of hexadecimal digits with colons between them and
possibly a dotted quad at the end, with one `::` for what is missing to sixteen bytes: `Form`. These
texts are what `inet_pton6` reads (`inetPton6_eq_ok_iff`); it never stores outside of `tmp`.
-/

namespace SimpleUv.Libuv

open Foundations

/-- The bytes `bs` are stored in an array from a position on. -/
def store (tmp : List Byte) (pos : ℕ) (bs : List Byte) : Except Failure (List Byte) :=
  if pos + bs.length ≤ tmp.length then .ok (overwrite tmp pos bs) else .error .undefined

/-- The variables of `inet_pton6`. -/
structure Pton6 where
  tmp : List Byte
  tp : ℕ
  colonp : Option ℕ
  curtok : List Char
  seenXdigits : ℕ
  val : ℕ

namespace Pton6

/-- `xdigits_l`. -/
def xdigitsL : List Char :=
  ['0', '1', '2', '3', '4', '5', '6', '7', '8', '9', 'a', 'b', 'c', 'd', 'e', 'f']

/-- `xdigits_u`. -/
def xdigitsU : List Char :=
  ['0', '1', '2', '3', '4', '5', '6', '7', '8', '9', 'A', 'B', 'C', 'D', 'E', 'F']

/-- The number `pch - xdigits`. -/
def xdigit (ch : Char) : Option ℕ :=
  match strchr xdigitsL ch with
  | some d => some d
  | none => strchr xdigitsU ch

/-- The end of `tmp`. -/
def endp : ℕ := 16

/-- The variables in front of the loop. -/
def start (src : List Char) : Pton6 := ⟨List.replicate endp 0, 0, none, src, 0, 0⟩

/-- The two bytes of a word, the more significant one first. -/
def word (val : ℕ) : List Byte := [.ofNat 8 (val >>> 8), .ofNat 8 val]

/-- The word read is stored. -/
def push (s : Pton6) : Except Failure Pton6 :=
  if s.tp + 2 > endp then .error .EINVAL
  else do
    let tmp ← store s.tmp s.tp (word s.val)
    return { s with tmp := tmp, tp := s.tp + 2 }

/-- The loop over the characters. -/
def loop : List Char → Pton6 → Except Failure Pton6
  | [], s => .ok s
  | ch :: src, s =>
    match xdigit ch with
    | some d =>
      if s.seenXdigits + 1 > 4 then .error .EINVAL
      else loop src { s with val := s.val <<< 4 ||| d, seenXdigits := s.seenXdigits + 1 }
    | none =>
      if ch = ':' then
        if s.seenXdigits = 0 then
          if s.colonp.isSome then .error .EINVAL
          else loop src { s with curtok := src, colonp := some s.tp }
        else if src = [] then .error .EINVAL
        else do
          let s ← push { s with curtok := src }
          loop src { s with seenXdigits := 0, val := 0 }
      else if ch = '.' ∧ s.tp + 4 ≤ endp then
        match inetPton4 s.curtok with
        | .ok a => do
          let tmp ← store s.tmp s.tp a
          return { s with tmp := tmp, tp := s.tp + 4, seenXdigits := 0 }
        | .error _ => .error .EINVAL
      else .error .EINVAL

/-- The shift by hand of the `n` bytes at `colonp` to the end of `tmp`. The turn `i` of the loop moves
the byte `m = n - i`. -/
def shift (colonp n : ℕ) : ℕ → List Byte → Except Failure (List Byte)
  | 0, tmp => .ok tmp
  | m + 1, tmp => do
    let tmp ← store tmp (endp - (n - m)) [tmp.getD (colonp + m) 0]
    let tmp ← store tmp (colonp + m) [0]
    shift colonp n m tmp

/-- The bytes of `tmp` that are copied to `dst`, when all that was read is stored. -/
def copy (s : Pton6) : Except Failure (List Byte) :=
  match s.colonp with
  | some colonp =>
    if s.tp = endp then .error .EINVAL
    else shift colonp (s.tp - colonp) (s.tp - colonp) s.tmp
  | none => if s.tp ≠ endp then .error .EINVAL else .ok s.tmp

/-- What follows the loop. -/
def finish (s : Pton6) : Except Failure (List Byte) := do
  let s ← if s.seenXdigits ≠ 0 then s.push else .ok s
  s.copy

end Pton6

/-- `inet_pton6`: the bytes written to `dst`. A colon in front must be one of two. -/
def inetPton6 (src : List Char) : Except Failure (List Byte) := do
  let src ← match src with
    | ':' :: ':' :: src => .ok (':' :: src)
    | ':' :: _ => .error .EINVAL
    | _ => .ok src
  let s ← Pton6.loop src (Pton6.start src)
  s.finish

theorem store_append {out : List Byte} {n : ℕ} {bs : List Byte} (h : out.length + bs.length ≤ n) :
    store (out ++ List.replicate (n - out.length) 0) out.length bs =
      .ok ((out ++ bs) ++ List.replicate (n - (out ++ bs).length) 0) := by
  have hsplit : List.replicate (n - out.length) (0 : Byte) =
      List.replicate bs.length 0 ++ List.replicate (n - (out ++ bs).length) 0 := by
    rw [List.replicate_append_replicate, List.length_append]
    congr 1
    omega
  rw [store, if_pos, hsplit, overwrite_append (List.length_replicate), List.append_assoc]
  rw [List.length_append, List.length_replicate]
  omega

namespace Pton6

theorem xdigit_lt {ch : Char} {d : ℕ} (h : xdigit ch = some d) : d < 16 := by
  have hlt : ∀ s : List Char, s.Nodup → s.length = 16 → strchr s ch = some d → d < 16 := by
    intro s hs hlen hstr
    obtain ⟨hd, -⟩ := List.getElem?_eq_some_iff.1 ((strchr_eq_some_iff hs).1 hstr)
    exact hlen ▸ hd
  unfold xdigit at h
  cases hl : strchr xdigitsL ch with
  | some e =>
    rw [hl] at h
    exact hlt xdigitsL (by decide) rfl (hl.trans h)
  | none =>
    rw [hl] at h
    exact hlt xdigitsU (by decide) rfl h

/-- The number that a string of hexadecimal digits stands for. -/
def value (tok : List Char) : ℕ := numeral 16 0 (tok.filterMap xdigit)

theorem value_concat {ch : Char} {d : ℕ} (h : xdigit ch = some d) (tok : List Char) :
    value (tok ++ [ch]) = value tok <<< 4 ||| d := by
  have hone : [ch].filterMap xdigit = [d] := by rw [List.filterMap_cons, h, List.filterMap_nil]
  rw [value, List.filterMap_append, hone, numeral_concat,
    ← Nat.shiftLeft_add_eq_or_of_lt (show d < 2 ^ 4 from xdigit_lt h), Nat.shiftLeft_eq]
  rfl

/-- The variables when the bytes `out` are stored, a `::` was read behind `colonp` of them, and the digits
`tok` in front of the rest `src` of the string. -/
def state (out : List Byte) (colonp : Option ℕ) (tok src : List Char) : Pton6 :=
  ⟨out ++ List.replicate (endp - out.length) 0, out.length, colonp, tok ++ src, tok.length, value tok⟩

theorem start_eq (src : List Char) : start src = state [] none [] src := rfl

theorem length_word (val : ℕ) : (word val).length = 2 := rfl

section Loop

variable {out : List Byte} {colonp : Option ℕ} {tok src : List Char}

theorem loop_xdigit {ch : Char} {d : ℕ} (h : xdigit ch = some d) :
    loop (ch :: src) (state out colonp tok (ch :: src)) =
      if tok.length + 1 > 4 then .error .EINVAL else loop src (state out colonp (tok ++ [ch]) src) := by
  have hstate : state out colonp (tok ++ [ch]) src = { state out colonp tok (ch :: src) with
      val := value tok <<< 4 ||| d, seenXdigits := tok.length + 1 } := by
    simp only [state, value_concat h, List.append_assoc, List.singleton_append, List.length_append,
      List.length_singleton]
  rw [loop, h, hstate]
  rfl

theorem push_eq {s : Pton6} (htmp : s.tmp = out ++ List.replicate (endp - out.length) 0)
    (htp : s.tp = out.length) : s.push = if out.length + 2 > endp then .error .EINVAL
      else .ok { s with
        tmp := (out ++ word s.val) ++ List.replicate (endp - (out ++ word s.val).length) 0
        tp := (out ++ word s.val).length } := by
  rw [push, htp]
  split_ifs with h
  · rfl
  · rw [htmp, store_append (Nat.le_of_not_lt h), List.length_append]
    rfl

theorem loop_colon_nil (hnil : colonp = none) :
    loop (':' :: src) (state out colonp [] (':' :: src)) =
      loop src (state out (some out.length) [] src) := by
  subst hnil
  rfl

theorem loop_colon (htok : tok ≠ []) (hsrc : src ≠ []) :
    loop (':' :: src) (state out colonp tok (':' :: src)) =
      if out.length + 2 > endp then .error .EINVAL
      else loop src (state (out ++ word (value tok)) colonp [] src) := by
  have hx : xdigit ':' = none := by decide
  have hlen : tok.length ≠ 0 := fun h => htok (List.eq_nil_of_length_eq_zero h)
  have hpush : push { state out colonp tok (':' :: src) with curtok := src } =
      if out.length + 2 > endp then .error .EINVAL
      else .ok { state (out ++ word (value tok)) colonp tok src with
        curtok := src, seenXdigits := tok.length, val := value tok } := push_eq rfl rfl
  rw [loop, hx]
  dsimp only
  rw [if_pos rfl]
  show (if tok.length = 0 then _ else _) = _
  rw [if_neg hlen, if_neg hsrc]
  show push { state out colonp tok (':' :: src) with curtok := src } >>= _ = _
  rw [hpush]
  split_ifs <;> rfl

theorem loop_colon_end (htok : tok ≠ []) :
    loop [':'] (state out colonp tok [':']) = .error .EINVAL := by
  have hx : xdigit ':' = none := by decide
  have hlen : tok.length ≠ 0 := fun h => htok (List.eq_nil_of_length_eq_zero h)
  rw [loop, hx]
  dsimp only
  rw [if_pos rfl]
  show (if tok.length = 0 then _ else _) = _
  rw [if_neg hlen, if_pos rfl]

theorem loop_dot : loop ('.' :: src) (state out colonp tok ('.' :: src)) =
    if out.length + 4 ≤ endp then
      match inetPton4 (tok ++ '.' :: src) with
      | .ok a => do
        let tmp ← store (state out colonp tok ('.' :: src)).tmp out.length a
        return { state out colonp tok ('.' :: src) with tmp := tmp, tp := out.length + 4, seenXdigits := 0 }
      | .error _ => .error .EINVAL
    else .error .EINVAL := by
  have hx : xdigit '.' = none := by decide
  rw [loop, hx]
  dsimp only
  rw [if_neg (by decide)]
  exact if_congr (and_iff_right rfl) rfl rfl

theorem loop_other {ch : Char} (hx : xdigit ch = none) (hcolon : ch ≠ ':') (hdot : ch ≠ '.')
    (s : Pton6) : loop (ch :: src) s = .error .EINVAL := by
  rw [loop, hx]
  dsimp only
  rw [if_neg hcolon, if_neg fun h => hdot h.1]

end Loop

/-- The bytes `out` with the zeros for what is missing behind the first `c` of them. -/
def spread (c : ℕ) (out : List Byte) : List Byte :=
  out.take c ++ (List.replicate (endp - out.length) 0 ++ out.drop c)

/-- The address read when the bytes `out` are stored. -/
def complete (out : List Byte) : Option ℕ → Except Failure (List Byte)
  | none => if out.length = endp then .ok out else .error .EINVAL
  | some c => if out.length = endp then .error .EINVAL else .ok (spread c out)

theorem store_one {l r : List Byte} {x y : Byte} {pos : ℕ} (hpos : pos = l.length) :
    store (l ++ x :: r) pos [y] = .ok (l ++ y :: r) := by
  have hover : overwrite (l ++ ([x] ++ r)) l.length [y] = l ++ ([y] ++ r) := overwrite_append rfl
  rw [store, if_pos, hpos]
  · exact congrArg Except.ok hover
  · rw [List.length_append, List.length_cons, List.length_cons, List.length_nil]
    omega

/-- One turn of the shift: the last byte in front of the zeros changes its place with the last of them. -/
theorem shift_spec {pre mid suf : List Byte} {k n : ℕ} (hk : 0 < k) (hn : n = mid.length + suf.length)
    (htotal : pre.length + n + k = endp) :
    shift pre.length n mid.length (pre ++ (mid ++ (List.replicate k 0 ++ suf))) =
      .ok (pre ++ (List.replicate k 0 ++ (mid ++ suf))) := by
  induction mid using List.reverseRecOn generalizing suf with
  | nil => rfl
  | append_singleton mid x ih =>
    obtain ⟨k, rfl⟩ : ∃ j, k = j + 1 := ⟨k - 1, by omega⟩
    rw [List.length_append, List.length_singleton] at hn ⊢
    have hread : (pre ++ (mid ++ [x] ++ (List.replicate (k + 1) 0 ++ suf))).getD
        (pre.length + mid.length) 0 = x := by
      rw [List.append_assoc mid, ← List.append_assoc pre, ← List.length_append]
      simp
    have hfirst : pre ++ (mid ++ [x] ++ (List.replicate (k + 1) 0 ++ suf)) =
        (pre ++ (mid ++ ([x] ++ List.replicate k 0))) ++ 0 :: suf := by
      rw [List.replicate_succ']
      simp only [List.append_assoc, List.cons_append, List.nil_append]
    have hpos : endp - (n - mid.length) = (pre ++ (mid ++ ([x] ++ List.replicate k 0))).length := by
      simp only [List.length_append, List.length_singleton, List.length_replicate]
      omega
    have hsecond : (pre ++ (mid ++ ([x] ++ List.replicate k 0))) ++ x :: suf =
        (pre ++ mid) ++ x :: (List.replicate k 0 ++ (x :: suf)) := by
      simp only [List.append_assoc, List.cons_append, List.nil_append]
    have hthird : (pre ++ mid) ++ 0 :: (List.replicate k 0 ++ (x :: suf)) =
        pre ++ (mid ++ (List.replicate (k + 1) 0 ++ (x :: suf))) := by
      rw [List.replicate_succ]
      simp only [List.append_assoc, List.cons_append]
    have hfinal : pre ++ (List.replicate (k + 1) 0 ++ (mid ++ [x] ++ suf)) =
        pre ++ (List.replicate (k + 1) 0 ++ (mid ++ (x :: suf))) := by
      rw [List.append_assoc mid, List.singleton_append]
    rw [shift, hread, hfirst, hpos, store_one rfl]
    show store _ (pre.length + mid.length) [0] >>= _ = _
    rw [hsecond, store_one (List.length_append).symm, hthird, hfinal]
    exact ih (by rw [List.length_cons]; omega)

theorem finish_of_ne {s : Pton6} (h : s.seenXdigits ≠ 0) : s.finish = s.push >>= copy := by
  rw [finish, if_pos h]

/-- What is copied to `dst`. -/
theorem copy_eq {s : Pton6} {out : List Byte} (htmp : s.tmp = out ++ List.replicate (endp - out.length) 0)
    (htp : s.tp = out.length) (hlen : out.length ≤ endp) (hc : ∀ c ∈ s.colonp, c ≤ out.length) :
    s.copy = complete out s.colonp := by
  obtain ⟨tmp, tp, colonp, curtok, seenXdigits, val⟩ := s
  simp only at htmp htp hc
  subst htmp htp
  cases colonp with
  | none =>
    show (if out.length ≠ endp then Except.error Failure.EINVAL else .ok _) = _
    dsimp only [complete]
    by_cases h : out.length = endp
    · rw [if_neg (not_not.2 h), if_pos h, h, Nat.sub_self, List.replicate_zero, List.append_nil]
    · rw [if_pos h, if_neg h]
  | some c =>
    have hc := hc c rfl
    show (if out.length = endp then Except.error Failure.EINVAL else shift c _ _ _) = _
    dsimp only [complete]
    split_ifs with h
    · rfl
    · have hpre : (out.take c).length = c := List.length_take_of_le hc
      have hmid : (out.drop c).length = out.length - c := List.length_drop
      have hshift : shift (out.take c).length (out.length - c) (out.drop c).length
          (out.take c ++ (out.drop c ++ (List.replicate (endp - out.length) 0 ++ []))) =
          .ok (out.take c ++ (List.replicate (endp - out.length) 0 ++ (out.drop c ++ []))) :=
        shift_spec (by omega) hmid.symm (by rw [hpre]; omega)
      rw [hpre, hmid, List.append_nil, List.append_nil, ← List.append_assoc, List.take_append_drop]
        at hshift
      exact hshift

end Pton6

end SimpleUv.Libuv
