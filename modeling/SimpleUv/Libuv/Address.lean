import SimpleUv.Libuv.InetNtop

/-!
# Socket addresses: `uv_inet_pton`, `uv_ip4_addr` and `uv_ip6_addr`

The address of a peer is given by a text, which for addresses of sixteen bytes may name a zone behind a
`%`. `uv_ip6_addr` copies what stands in front of the `%` to an array of 40 bytes. This is enough for
every text that `uv_ip6_name` writes, but not for every text that `uv_inet_pton` reads: a longer one is
cut, and what is left is never a text of the same address (`uvIp6Addr_zone_iff`).
-/

namespace SimpleUv.Libuv

open Foundations Pton6 Ntop6

/-- The address families: `AF_INET`, `AF_INET6` and the others. -/
inductive AddressFamily
  | inet
  | inet6
  | other
  deriving DecidableEq

/-- `uv_inet_ntop`. -/
def uvInetNtop (af : AddressFamily) (src : List Byte) (size : ℕ) : Except Failure (List Char) :=
  match af with
  | .inet => inetNtop4 src size
  | .inet6 => inetNtop6 src size
  | .other => .error .EAFNOSUPPORT

/-- `uv_inet_pton`. The string `src` is `none` if it is `NULL`. -/
def uvInetPton (af : AddressFamily) (src : Option (List Char)) : Except Failure (List Byte) :=
  match src with
  | none => .error .EINVAL
  | some src =>
    match af with
    | .inet => inetPton4 src
    | .inet6 =>
      match strchr src '%' with
      | some len => if len > uvInet6Addrstrlen - 1 then .error .EINVAL else inetPton6 (src.take len)
      | none => inetPton6 src
    | .other => .error .EAFNOSUPPORT

/-- `htons`, as the two bytes in memory. -/
def htons (port : ℤ) : List Byte := word (BitVec.ofInt 16 port).toNat

/-- `struct sockaddr_in`. -/
structure SockaddrIn where
  sinPort : List Byte
  sinAddr : List Byte
  deriving DecidableEq

/-- `struct sockaddr_in6`. -/
structure SockaddrIn6 where
  sin6Port : List Byte
  sin6Addr : List Byte
  sin6ScopeId : ℕ
  deriving DecidableEq

/-- `uv_ip4_addr`. -/
def uvIp4Addr (ip : List Char) (port : ℤ) : Except Failure SockaddrIn := do
  let addr ← uvInetPton .inet (some ip)
  return ⟨htons port, addr⟩

/-- `sizeof(address_part)`. -/
def sizeofAddressPart : ℕ := 40

/-- `uv_ip6_addr`. The interface that is named behind the `%` has the number `ifNametoindex`, given by
`atoi` on Windows. -/
def uvIp6Addr (ifNametoindex : List Char → ℕ) (ip : List Char) (port : ℤ) : Except Failure SockaddrIn6 :=
  match strchr ip '%' with
  | some zoneIndex => do
    let addressPartSize := if zoneIndex ≥ sizeofAddressPart then sizeofAddressPart - 1 else zoneIndex
    let addr ← uvInetPton .inet6 (some (ip.take addressPartSize))
    return ⟨htons port, addr, ifNametoindex (ip.drop (zoneIndex + 1))⟩
  | none => do
    let addr ← uvInetPton .inet6 (some ip)
    return ⟨htons port, addr, 0⟩

/-- `uv_ip4_name`. -/
def uvIp4Name (src : SockaddrIn) (size : ℕ) : Except Failure (List Char) :=
  uvInetNtop .inet src.sinAddr size

/-- `uv_ip6_name`. -/
def uvIp6Name (src : SockaddrIn6) (size : ℕ) : Except Failure (List Char) :=
  uvInetNtop .inet6 src.sin6Addr size

/-- **`uv_ip4_addr` reads an address from its name and from no other text.** -/
theorem uvIp4Addr_eq_ok_iff (ip : List Char) (port : ℤ) (src : SockaddrIn) : uvIp4Addr ip port = .ok src ↔
    src.sinPort = htons port ∧ src.sinAddr.length = 4 ∧ uvIp4Name src uvInetAddrstrlen = .ok ip := by
  have hname : uvIp4Name src uvInetAddrstrlen = .ok (formatQuad src.sinAddr) :=
    (inetNtop4_eq _ _).trans (if_pos (length_formatQuad _).2)
  have haddr : uvIp4Addr ip port = (inetPton4 ip).map fun a => ⟨htons port, a⟩ := rfl
  rw [hname, haddr]
  constructor
  · intro h
    rcases inetPton4_spec ip with h' | ⟨a, h', ha, rfl⟩
    · rw [h'] at h
      cases h
    · rw [h'] at h
      cases h
      exact ⟨rfl, ha, rfl⟩
  · rintro ⟨hport, hlen, ⟨⟩⟩
    rw [inetPton4_formatQuad hlen, ← hport]
    rfl

theorem strchr_of_notMem {s : List Char} {ch : Char} (h : ch ∉ s) : strchr s ch = none :=
  List.idxOf?_eq_none_iff.2 h

theorem strchr_append {s t : List Char} {ch : Char} (h : ch ∉ s) :
    strchr (s ++ ch :: t) ch = some s.length := by
  rw [strchr, List.idxOf?_eq_some_iff]
  refine ⟨by rw [List.length_append, List.length_cons]; omega, by simp, fun j hj hch => h ?_⟩
  rw [List.getElem_append_left hj] at hch
  exact hch ▸ List.getElem_mem hj

/-- A hexadecimal digit or a colon. -/
def Plain (ch : Char) : Prop := (xdigit ch).isSome ∨ ch = ':'

theorem plain_groupsText (gs : List Group) : ∀ ch ∈ groupsText gs, Plain ch := by
  intro ch hch
  obtain ⟨g, -, hg⟩ := List.mem_flatMap.1 hch
  rcases List.mem_append.1 hg with hg | hg
  · exact .inl (g.hex ch hg)
  · exact .inr (List.mem_singleton.1 hg)

theorem groupsText_end (gs : List Group) : groupsText gs = [] ∨ ∃ l, groupsText gs = l ++ [':'] := by
  rcases List.eq_nil_or_concat' gs with rfl | ⟨gs, g, rfl⟩
  · exact .inl rfl
  · refine .inr ⟨groupsText gs ++ g.digits, ?_⟩
    rw [groupsText, List.flatMap_append, List.flatMap_singleton, List.append_assoc]
    rfl

/-- The two kinds of texts: those with a quad at the end, and those without one. -/
theorem Form.shape (f : Form) :
    (∃ front quad, f.text = front ++ formatQuad quad ∧ (∀ ch ∈ front, Plain ch) ∧ front.length ≤ 30 ∧
      (front = [] ∨ ∃ l, front = l ++ [':']) ∧ f.bytes.drop 12 = quad) ∨
    (∀ ch ∈ f.text, Plain ch) ∧ f.text.length ≤ 39 := by
  cases f with
  | full p h =>
    obtain ⟨gs, g | q⟩ := p
    · refine .inr ⟨fun ch hch => ?_, ?_⟩
      · rcases List.mem_append.1 hch with hch | hch
        · exact plain_groupsText gs ch hch
        · exact .inl (g.hex ch hch)
      · have hgs := length_groupsText gs
        have hg := g.length_le
        have hlen : (groupsBytes gs ++ g.bytes).length = 16 := h
        rw [List.length_append, length_groupsBytes, g.length_bytes] at hlen
        show (groupsText gs ++ g.digits).length ≤ 39
        rw [List.length_append]
        omega
    · have hgs := length_groupsText gs
      have hlen : (groupsBytes gs ++ q.toList).length = 16 := h
      rw [List.length_append, q.toList_length] at hlen
      have hbytes := length_groupsBytes gs
      exact .inl ⟨groupsText gs, q.toList, rfl, plain_groupsText gs, by omega, groupsText_end gs,
        List.drop_left' (show (groupsBytes gs).length = 12 by omega)⟩
  | short left right h =>
    have hleft := length_groupsText left
    have hbytes := length_groupsBytes left
    have hcolon : ∀ ch ∈ colonIf (left = []), Plain ch := by
      intro ch hch
      rw [colonIf] at hch
      split_ifs at hch
      · exact .inr (List.mem_singleton.1 hch)
      · exact absurd hch List.not_mem_nil
    have hone : (colonIf (left = [])).length ≤ 1 := by
      rw [colonIf]
      split_ifs <;> decide
    obtain ⟨front, hdef⟩ : ∃ l, l = groupsText left ++ (colonIf (left = []) ++ [':']) := ⟨_, rfl⟩
    have hfront : ∀ ch ∈ front, Plain ch := by
      intro ch hch
      rw [hdef] at hch
      rcases List.mem_append.1 hch with hch | hch
      · exact plain_groupsText left ch hch
      · rcases List.mem_append.1 hch with hch | hch
        · exact hcolon ch hch
        · exact .inr (List.mem_singleton.1 hch)
    have hlen : front.length ≤ 5 * left.length + 2 := by
      rw [hdef, List.length_append, List.length_append, List.length_singleton]
      omega
    have htext : (Form.short left right h).text = front ++ Part.textOf right := by
      rw [form_text, hdef, List.append_assoc, List.append_assoc, List.singleton_append]
    rcases right with _ | ⟨gs, g | q⟩
    · refine .inr ⟨fun ch hch => hfront ch ?_, ?_⟩
      · rwa [htext, Part.textOf, Option.elim_none, List.append_nil] at hch
      · rw [htext, Part.textOf, Option.elim_none, List.append_nil]
        rw [List.length_append, hbytes, endp] at h
        omega
    · have hgs := length_groupsText gs
      have hg := g.length_le
      have hlt : (groupsBytes left ++ (groupsBytes gs ++ g.bytes)).length < 16 := h
      rw [List.length_append, List.length_append, hbytes, length_groupsBytes, g.length_bytes] at hlt
      refine .inr ⟨fun ch hch => ?_, ?_⟩
      · rw [htext] at hch
        rcases List.mem_append.1 hch with hch | hch
        · exact hfront ch hch
        · rcases List.mem_append.1 hch with hch | hch
          · exact plain_groupsText gs ch hch
          · exact .inl (g.hex ch hch)
      · rw [htext]
        show (front ++ (groupsText gs ++ g.digits)).length ≤ 39
        rw [List.length_append, List.length_append]
        omega
    · have hgs := length_groupsText gs
      have hlt : (groupsBytes left ++ (groupsBytes gs ++ q.toList)).length < 16 := h
      have hspread : (Form.short left (some ⟨gs, .quad q⟩) h).bytes = (groupsBytes left ++
          List.replicate (endp - (groupsBytes left ++ (groupsBytes gs ++ q.toList)).length) 0 ++
            groupsBytes gs) ++ q.toList := by
        rw [Form.bytes, spread, List.take_left, List.drop_left, List.append_assoc, List.append_assoc]
        rfl
      rw [List.length_append, List.length_append, hbytes, length_groupsBytes, q.toList_length] at hlt
      refine .inl ⟨front ++ groupsText gs, q.toList, ?_, ?_, ?_, ?_, ?_⟩
      · rw [htext, List.append_assoc]
        rfl
      · intro ch hch
        rcases List.mem_append.1 hch with hch | hch
        · exact hfront ch hch
        · exact plain_groupsText gs ch hch
      · rw [List.length_append]
        omega
      · rcases groupsText_end gs with hnil | ⟨l, hl⟩
        · refine .inr ⟨groupsText left ++ colonIf (left = []), ?_⟩
          rw [hnil, List.append_nil, hdef, List.append_assoc]
        · exact .inr ⟨front ++ l, by rw [hl, List.append_assoc]⟩
      · rw [hspread]
        refine List.drop_left' ?_
        rw [List.length_append, List.length_append, List.length_replicate, List.length_append,
          List.length_append, hbytes, length_groupsBytes, q.toList_length, endp]
        omega

theorem mem_formatQuad {a : List Byte} {ch : Char} (h : ch ∈ formatQuad a) :
    (xdigit ch).isSome ∨ ch = '.' := by
  have hex : ∀ b : Byte, ch ∈ formatU b → (xdigit ch).isSome := fun b => (octet b).hex ch
  simp only [formatQuad, List.mem_append, List.mem_cons] at h
  rcases h with h | h | h | h | h | h | h
  · exact .inl (hex _ h)
  · exact .inr h
  · exact .inl (hex _ h)
  · exact .inr h
  · exact .inl (hex _ h)
  · exact .inr h
  · exact .inl (hex _ h)

/-- No text has a `%`. -/
theorem percent_notMem (f : Form) : '%' ∉ f.text := by
  have hx : ¬(xdigit '%').isSome := by decide
  have hplain : ¬Plain '%' := fun h => h.elim hx (by decide)
  intro h
  rcases f.shape with ⟨front, quad, htext, hfront, -⟩ | ⟨hall, -⟩
  · rw [htext] at h
    rcases List.mem_append.1 h with h | h
    · exact hplain (hfront _ h)
    · exact (mem_formatQuad h).elim hx (by decide)
  · exact hplain (hall _ h)

theorem uvInetPton_of_notMem {s : List Char} (h : '%' ∉ s) : uvInetPton .inet6 (some s) = inetPton6 s := by
  unfold uvInetPton
  dsimp only
  rw [strchr_of_notMem h]

section Zone

variable (ifNametoindex : List Char → ℕ) (port : ℤ)

theorem uvIp6Addr_of_notMem {s : List Char} (h : '%' ∉ s) : uvIp6Addr ifNametoindex s port =
    (inetPton6 s).map fun a => ⟨htons port, a, 0⟩ := by
  rw [uvIp6Addr, strchr_of_notMem h]
  dsimp only
  rw [uvInetPton_of_notMem h]
  rfl

/-- Of a text with a zone the first 39 characters are read. -/
theorem uvIp6Addr_zone {s : List Char} (h : '%' ∉ s) (zone : List Char) :
    uvIp6Addr ifNametoindex (s ++ '%' :: zone) port =
      (inetPton6 (s.take 39)).map fun a => ⟨htons port, a, ifNametoindex zone⟩ := by
  have htake : (s ++ '%' :: zone).take
      (if s.length ≥ sizeofAddressPart then sizeofAddressPart - 1 else s.length) = s.take 39 := by
    split_ifs with hlen
    · exact List.take_append_of_le_length ((Nat.sub_le 40 1).trans hlen)
    · rw [List.take_left, List.take_of_length_le (Nat.le_of_lt_succ (Nat.lt_of_not_le hlen))]
  have hdrop : (s ++ '%' :: zone).drop (s.length + 1) = zone := by
    rw [← List.drop_drop, List.drop_left]
    rfl
  have hnot : '%' ∉ s.take 39 := fun hmem => h (List.mem_of_mem_take hmem)
  rw [uvIp6Addr, strchr_append h]
  dsimp only
  rw [htake, hdrop, uvInetPton_of_notMem hnot]
  rfl

/-- **What `uv_ip6_name` writes for an address is read back by `uv_ip6_addr`**, with and without a zone. -/
theorem uvIp6Addr_uvIp6Name (src : SockaddrIn6) (hsrc : src.sin6Addr.length = 16) (zone : List Char) :
    ∃ s, uvIp6Name src uvInet6Addrstrlen = .ok s ∧
      uvIp6Addr ifNametoindex s port = .ok ⟨htons port, src.sin6Addr, 0⟩ ∧
      uvIp6Addr ifNametoindex (s ++ '%' :: zone) port =
        .ok ⟨htons port, src.sin6Addr, ifNametoindex zone⟩ := by
  obtain ⟨f, hf, hlen, hsize⟩ := inetNtop6_eq hsrc
  have hmax : ¬f.text.length + 1 > uvInet6Addrstrlen := by
    rw [uvInet6Addrstrlen]
    omega
  have hread : inetPton6 f.text = .ok src.sin6Addr := hf ▸ inetPton6_text f
  refine ⟨f.text, (hsize uvInet6Addrstrlen).trans (if_neg hmax), ?_, ?_⟩
  · rw [uvIp6Addr_of_notMem _ _ (percent_notMem f), hread]
    rfl
  · rw [uvIp6Addr_zone _ _ (percent_notMem f), List.take_of_length_le hlen, hread]
    rfl

end Zone

theorem uvIp6Addr_uvIp6Name_loopback : ∃ s,
    uvIp6Name ⟨htons 0, [0, 0, 0, 0, 0, 0, 0, 0, 0, 0, 0, 0, 0, 0, 0, 1], 0⟩ uvInet6Addrstrlen = .ok s ∧
      uvIp6Addr (fun _ => 2) s 80 = .ok ⟨htons 80, [0, 0, 0, 0, 0, 0, 0, 0, 0, 0, 0, 0, 0, 0, 0, 1], 0⟩ ∧
      uvIp6Addr (fun _ => 2) (s ++ '%' :: ['e', 'n', '1']) 80 =
        .ok ⟨htons 80, [0, 0, 0, 0, 0, 0, 0, 0, 0, 0, 0, 0, 0, 0, 0, 1], 2⟩ :=
  uvIp6Addr_uvIp6Name (fun _ => 2) 80 ⟨htons 0, [0, 0, 0, 0, 0, 0, 0, 0, 0, 0, 0, 0, 0, 0, 0, 1], 0⟩ rfl
    ['e', 'n', '1']

theorem getElem?_append_cons (l r : List Char) (ch : Char) : (l ++ ch :: r)[l.length]? = some ch := by
  rw [List.getElem?_append_right le_rfl, Nat.sub_self, List.getElem?_cons_zero]

/-- A text that is cut is no text of the same address: it would end with the same quad, which would then
reach over the last colon. -/
theorem bytes_ne_of_take {f g : Form} (hg : g.text = f.text.take 39) (hlong : 39 < f.text.length) :
    g.bytes ≠ f.bytes := by
  intro hbytes
  obtain ⟨front, quad, hf, -, hfront, hend, hquad⟩ : _ := f.shape.resolve_right fun h => by omega
  have hdot : '.' ∈ g.text := by
    have hlen : (front ++ formatU (quad.getD 0 0)).length < 39 := by
      have hu := length_formatU (quad.getD 0 0)
      rw [List.length_append]
      omega
    have hsplit : f.text = (front ++ formatU (quad.getD 0 0)) ++ '.' :: (formatU (quad.getD 1 0) ++
        '.' :: (formatU (quad.getD 2 0) ++ '.' :: formatU (quad.getD 3 0))) := by
      rw [hf, formatQuad, List.append_assoc]
    have hat := getElem?_append_cons (front ++ formatU (quad.getD 0 0)) (formatU (quad.getD 1 0) ++
      '.' :: (formatU (quad.getD 2 0) ++ '.' :: formatU (quad.getD 3 0))) '.'
    rw [← hsplit, ← List.getElem?_take_of_lt hlen, ← hg] at hat
    exact List.mem_of_getElem? hat
  have hplain : ¬Plain '.' := fun h => h.elim (by decide) (by decide)
  obtain ⟨front', quad', hg', -, -, -, hquad'⟩ := g.shape.resolve_right fun h => hplain (h.1 _ hdot)
  obtain rfl : quad = quad' := by rw [← hquad, ← hquad', hbytes]
  -- The last colon of `f` is behind `front'`.
  have hlenf : f.text.length = front.length + (formatQuad quad).length := by rw [hf, List.length_append]
  have hleng : 39 = front'.length + (formatQuad quad).length := by
    rw [← List.length_append, ← hg', hg, List.length_take_of_le hlong.le]
  obtain ⟨l, rfl⟩ := hend.resolve_left fun h => by
    rw [h, List.length_nil] at hlenf
    omega
  rw [List.length_append, List.length_singleton] at hfront hlenf
  have hat := getElem?_append_cons l (formatQuad quad) ':'
  rw [← List.singleton_append, ← List.append_assoc, ← hf,
    ← List.getElem?_take_of_lt (show l.length < 39 by omega), ← hg, hg',
    List.getElem?_append_right (by omega)] at hat
  exact (mem_formatQuad (List.mem_of_getElem? hat)).elim (by decide) (by decide)

/-- **A text with a zone is read as the address it stands for exactly when it has at most 39
characters**, though `uv_inet_pton` reads longer ones. -/
theorem uvIp6Addr_zone_iff {s : List Char} {a : List Byte} (h : uvInetPton .inet6 (some s) = .ok a)
    (hs : '%' ∉ s) (ifNametoindex : List Char → ℕ) (port : ℤ) (zone : List Char) :
    uvIp6Addr ifNametoindex (s ++ '%' :: zone) port = .ok ⟨htons port, a, ifNametoindex zone⟩ ↔
      s.length ≤ 39 := by
  rw [uvInetPton_of_notMem hs] at h
  rw [uvIp6Addr_zone _ _ hs]
  refine ⟨fun hzone => ?_, fun hlen => ?_⟩
  · by_contra hlong
    rcases inetPton6_spec s with h' | ⟨f, h', rfl⟩
    · rw [h'] at h
      cases h
    · obtain rfl := Except.ok.inj (h'.symm.trans h)
      rcases inetPton6_spec (f.text.take 39) with h'' | ⟨g, h'', hg⟩
      · rw [h''] at hzone
        cases hzone
      · rw [h''] at hzone
        have hbytes : g.bytes = f.bytes := congrArg SockaddrIn6.sin6Addr (Except.ok.inj hzone)
        exact bytes_ne_of_take hg (Nat.lt_of_not_le hlong) hbytes
  · rw [List.take_of_length_le hlen, h]
    rfl

theorem uvIp6Addr_zone_iff_forty : ¬uvIp6Addr (fun _ => 2)
    ("ffff:ffff:ffff:ffff:ffff:ffff:1.1.10.100".toList ++ '%' :: ['e', 'n', '1']) 80 =
      .ok ⟨htons 80, List.replicate 12 0xff ++ [1, 1, 10, 100], 2⟩ := fun h =>
  absurd ((uvIp6Addr_zone_iff (by decide) (by decide) (fun _ => 2) 80 ['e', 'n', '1']).1 h) (by decide)

end SimpleUv.Libuv
