import SimpleUv.Machine.Endian
import SimpleUv.Machine.Memory
import Mathlib.Data.List.GetD

/-!
# The packet header and its codec

`net_base.h`: 32-bit integers as four characters (`int32ToChar`, `charToInt32`) and the packet
header at its fixed offsets (`netPacketToChar`, `charToNetPacket`). Both directions pass through a
byte-order conversion of the host and a shift-based serialisation. The header codec loses exactly
what the casts to `uint32_t` lose: `charToNetPacket_netPacketToChar` reads back the packet with its
four integer fields modulo `2 ^ 32`, whatever stands behind the 34 characters that are written.
-/

namespace SimpleUv

open Foundations

/-- Reverse the four bytes of a word. -/
def byteSwap (n : BitVec 32) : BitVec 32 :=
  n.extractLsb' 0 8 ++ n.extractLsb' 8 8 ++ n.extractLsb' 16 8 ++ n.extractLsb' 24 8

/-- `htonl`, which is also `ntohl`. -/
def htonl : ByteOrder → BitVec 32 → BitVec 32
  | .little, n => byteSwap n
  | .big, n => n

/-- `Int32ToChar`: the four characters written. -/
def int32ToChar (B : Build) (intnum : BitVec 32) : List Byte :=
  let networkByteorder := htonl B.order intnum
  [((networkByteorder &&& 0xff000000#32) >>> 24).setWidth 8,
    ((networkByteorder &&& 0x00ff0000#32) >>> 16).setWidth 8,
    ((networkByteorder &&& 0x0000ff00#32) >>> 8).setWidth 8,
    (networkByteorder &&& 0x000000ff#32).setWidth 8]

/-- `CharToInt32`. -/
def charToInt32 (B : Build) (charnum : List Byte) : BitVec 32 :=
  let intnum := ((charnum.getD 0 0).setWidth 32 <<< 24) + ((charnum.getD 1 0).setWidth 32 <<< 16) +
    ((charnum.getD 2 0).setWidth 32 <<< 8) + (charnum.getD 3 0).setWidth 32
  htonl B.order intnum

/-- `NetPacket`. The four integer fields have type `size_t`. -/
structure NetPacket where
  version : ℕ
  header : Byte
  tail : Byte
  check : Digest
  type : ℕ
  datalen : ℕ
  reserve : ℕ
  deriving DecidableEq

/-- `NetPacketToChar`: the buffer `chardata` after the 34 characters are written. -/
def netPacketToChar (B : Build) (package : NetPacket) (chardata : List Byte) : List Byte :=
  let c := overwrite chardata 0 (int32ToChar B (.ofNat 32 package.version))
  let c := overwrite c 4 [package.header]
  let c := overwrite c 5 [package.tail]
  let c := overwrite c 6 package.check.toList
  let c := overwrite c 22 (int32ToChar B (.ofNat 32 package.type))
  let c := overwrite c 26 (int32ToChar B (.ofNat 32 package.datalen))
  overwrite c 30 (int32ToChar B (.ofNat 32 package.reserve))

/-- `CharToNetPacket`. Every field of the packet is assigned. -/
def charToNetPacket (B : Build) (chardata : List Byte) : NetPacket where
  version := (charToInt32 B chardata).toNat
  header := chardata.getD 4 0
  tail := chardata.getD 5 0
  check := .ofFn fun i => chardata.getD (6 + i) 0
  type := (charToInt32 B (chardata.drop 22)).toNat
  datalen := (charToInt32 B (chardata.drop 26)).toNat
  reserve := (charToInt32 B (chardata.drop 30)).toNat

/-- The packet with its integer fields cut to 32 bits. -/
def NetPacket.truncate (p : NetPacket) : NetPacket :=
  { p with
    version := p.version % 2 ^ 32
    type := p.type % 2 ^ 32
    datalen := p.datalen % 2 ^ 32
    reserve := p.reserve % 2 ^ 32 }

theorem NetPacket.truncate_eq {p : NetPacket} (hv : p.version < 2 ^ 32) (ht : p.type < 2 ^ 32)
    (hd : p.datalen < 2 ^ 32) (hr : p.reserve < 2 ^ 32) : p.truncate = p := by
  rw [NetPacket.truncate, Nat.mod_eq_of_lt hv, Nat.mod_eq_of_lt ht, Nat.mod_eq_of_lt hd,
    Nat.mod_eq_of_lt hr]

/-! ## Integers -/

@[simp] theorem length_int32ToChar (B : Build) (n : BitVec 32) : (int32ToChar B n).length = 4 := rfl

/-- The swapped word has the bytes of the word in reverse. -/
theorem byteSwap_toNat (n : BitVec 32) :
    (byteSwap n).toNat = ofBytes (toBytes 4 n.toNat).reverse := by
  rw [toBytes_toNat]
  show _ = ofBytes [n.extractLsb' 24 8, n.extractLsb' 16 8, n.extractLsb' 8 8, n.extractLsb' 0 8]
  simp only [byteSwap, toNat_append_byte, ofBytes_cons, ofBytes_nil, mul_zero, add_zero]

theorem toBytes_byteSwap (n : BitVec 32) :
    toBytes 4 (byteSwap n).toNat = (toBytes 4 n.toNat).reverse := by
  have := toBytes_ofBytes (toBytes 4 n.toNat).reverse
  rwa [List.length_reverse, length_toBytes, ← byteSwap_toNat] at this

/-- **A word in network byte order** stands in the memory of the host as its argument does on a
big-endian host. -/
theorem image_htonl (o : ByteOrder) (n : BitVec 32) :
    image o 4 (htonl o n).toNat = image .big 4 n.toNat := by
  cases o
  · exact toBytes_byteSwap n
  · rfl

theorem htonl_toNat (o : ByteOrder) (n : BitVec 32) :
    (htonl o n).toNat = word o (image .big 4 n.toNat) := by
  rw [← image_htonl o, word_image o (htonl o n).isLt]

/-- Bytes that are read as an integer of the host, and converted to the byte order of the host. -/
theorem htonl_word (o : ByteOrder) {bs : List Byte} (h : bs.length = 4) :
    (htonl o (.ofNat 32 (word o bs))).toNat = word .big bs := by
  have hlt := word_lt o bs
  rw [h] at hlt
  norm_num at hlt
  rw [htonl_toNat, BitVec.toNat_ofNat, Nat.mod_eq_of_lt (by omega)]
  cases o
  · rw [image, word, word, ← h, toBytes_ofBytes, word]
  · rw [image_word .big h]

/-- The shifts and masks take the bytes of a word, the most significant one first. -/
theorem masks_eq (m : BitVec 32) :
    [((m &&& 0xff000000#32) >>> 24).setWidth 8, ((m &&& 0x00ff0000#32) >>> 16).setWidth 8,
      ((m &&& 0x0000ff00#32) >>> 8).setWidth 8, (m &&& 0x000000ff#32).setWidth 8] =
      image .big 4 m.toNat := by
  have h₃ := mask_shift m 24 (by omega)
  have h₂ := mask_shift m 16 (by omega)
  have h₁ := mask_shift m 8 (by omega)
  have h₀ := mask_shift m 0 (by omega)
  rw [image, toBytes_toNat]
  exact congrArg₂ _ h₃ (congrArg₂ _ h₂ (congrArg₂ _ h₁ (congrArg₂ _ h₀ rfl)))

/-- **The characters written are the bytes of the value in the memory of the host**: the two byte-order
conversions cancel. -/
theorem int32ToChar_eq (B : Build) (n : BitVec 32) :
    int32ToChar B n = image B.order 4 n.toNat := by
  unfold int32ToChar
  rw [masks_eq]
  cases B.order
  · show (toBytes 4 (byteSwap n).toNat).reverse = toBytes 4 n.toNat
    rw [toBytes_byteSwap, List.reverse_reverse]
  · rfl

/-- The shifts and sums of `charToInt32` make a word of four bytes. -/
theorem charToInt32_cons (B : Build) (a b c d : Byte) (ys : List Byte) :
    charToInt32 B (a :: b :: c :: d :: ys) = htonl B.order (.ofNat 32 (word .big [a, b, c, d])) := by
  have := a.isLt
  have := b.isLt
  have := c.isLt
  have := d.isLt
  simp only [charToInt32, List.getD_cons_zero, List.getD_cons_succ]
  congr 1
  apply BitVec.eq_of_toNat_eq
  simp only [BitVec.toNat_add, BitVec.toNat_shiftLeft, BitVec.toNat_setWidth, BitVec.toNat_ofNat,
    Nat.shiftLeft_eq, word, List.reverse_cons, List.reverse_nil, List.nil_append,
    List.cons_append, ofBytes_cons, ofBytes_nil]
  omega

/-- **The value read is the integer in the memory of the host** that consists of the characters. -/
theorem charToInt32_eq (B : Build) {cs : List Byte} (h : 4 ≤ cs.length) :
    (charToInt32 B cs).toNat = word B.order (cs.take 4) := by
  obtain ⟨a, b, c, d, ys, rfl⟩ : ∃ a b c d ys, cs = a :: b :: c :: d :: ys := by
    match cs, h with
    | a :: b :: c :: d :: ys, _ => exact ⟨a, b, c, d, ys, rfl⟩
  have hlt := word_lt .big [a, b, c, d]
  norm_num at hlt
  rw [charToInt32_cons, htonl_toNat, BitVec.toNat_ofNat, Nat.mod_eq_of_lt hlt,
    image_word .big (k := 4) rfl]
  rfl

/-- An integer from one host to another, whatever follows the four characters. -/
theorem charToInt32_int32ToChar_of_hosts (A B : Build) (n : BitVec 32) (ys : List Byte) :
    (charToInt32 B (int32ToChar A n ++ ys)).toNat = word B.order (image A.order 4 n.toNat) := by
  rw [charToInt32_eq B (by simp), List.take_left' (length_int32ToChar A n), int32ToChar_eq]

/-- **The 32-bit codec round trip**, whatever follows the four characters. -/
theorem charToInt32_int32ToChar (B : Build) (n : BitVec 32) (ys : List Byte) :
    charToInt32 B (int32ToChar B n ++ ys) = n := by
  apply BitVec.eq_of_toNat_eq
  rw [charToInt32_int32ToChar_of_hosts, word_image B.order n.isLt]

example : int32ToChar zeroBuild 0x01020304 = [4, 3, 2, 1] ∧
    charToInt32 zeroBuild ([4, 3, 2, 1] ++ [7]) = 0x01020304 := by decide

/-- **The converse round trip.** -/
theorem int32ToChar_charToInt32 (B : Build) {cs : List Byte} (h : 4 ≤ cs.length) :
    int32ToChar B (charToInt32 B cs) = cs.take 4 := by
  rw [int32ToChar_eq, charToInt32_eq B h, image_word]
  rw [List.length_take]
  omega

/-! ## Headers -/

theorem charToInt32_append (B : Build) {xs : List Byte} (h : 4 ≤ xs.length) (ys : List Byte) :
    charToInt32 B (xs ++ ys) = charToInt32 B xs := by
  unfold charToInt32
  rw [List.getD_append _ _ _ _ (by omega), List.getD_append _ _ _ _ (by omega),
    List.getD_append _ _ _ _ (by omega), List.getD_append _ _ _ _ (by omega)]

/-- The decoding reads the first 34 characters only. -/
theorem charToNetPacket_append (B : Build) {xs : List Byte} (h : 34 ≤ xs.length)
    (ys : List Byte) : charToNetPacket B (xs ++ ys) = charToNetPacket B xs := by
  have hd : ∀ k, k ≤ 30 → charToInt32 B ((xs ++ ys).drop k) = charToInt32 B (xs.drop k) := by
    intro k hk
    rw [List.drop_append_of_le_length (by omega), charToInt32_append]
    rw [List.length_drop]
    omega
  have hc : (fun i : Fin 16 => (xs ++ ys).getD (6 + i) 0) = fun i : Fin 16 => xs.getD (6 + i) 0 := by
    funext i
    exact List.getD_append _ _ _ _ (by omega)
  unfold charToNetPacket
  rw [hd 22 (by omega), hd 26 (by omega), hd 30 (by omega), hc, charToInt32_append B (by omega),
    List.getD_append _ _ _ _ (by omega), List.getD_append _ _ _ _ (by omega)]

theorem charToNetPacket_take (B : Build) {xs : List Byte} {k : ℕ} (hk : 34 ≤ k)
    (h : 34 ≤ xs.length) : charToNetPacket B (xs.take k) = charToNetPacket B xs := by
  conv_rhs => rw [← List.take_append_drop k xs]
  rw [charToNetPacket_append]
  rw [List.length_take]
  omega

/-- The next field goes behind those already written. -/
theorem overwrite_append (a rest src : List Byte) :
    overwrite (a ++ rest) a.length src = a ++ src ++ rest.drop src.length := by
  rw [overwrite, List.take_left, List.drop_append, List.drop_eq_nil_of_le (by omega),
    List.nil_append]
  simp

/-- The header as it stands in the buffer. -/
theorem netPacketToChar_eq (B : Build) (p : NetPacket) (chardata : List Byte) :
    netPacketToChar B p chardata =
      int32ToChar B (.ofNat 32 p.version) ++ [p.header] ++ [p.tail] ++ p.check.toList ++
        int32ToChar B (.ofNat 32 p.type) ++ int32ToChar B (.ofNat 32 p.datalen) ++
        int32ToChar B (.ofNat 32 p.reserve) ++ chardata.drop 34 := by
  have step : ∀ (a rest src : List Byte) (k : ℕ), k = a.length →
      overwrite (a ++ rest) k src = a ++ src ++ rest.drop src.length := by
    rintro a rest src k rfl
    exact overwrite_append a rest src
  have h₀ := step [] chardata (int32ToChar B (.ofNat 32 p.version)) 0 rfl
  simp only [List.nil_append] at h₀
  simp only [netPacketToChar]
  rw [h₀, step _ _ _ 4 (by simp), step _ _ _ 5 (by simp), step _ _ _ 6 (by simp),
    step _ _ _ 22 (by simp), step _ _ _ 26 (by simp), step _ _ _ 30 (by simp)]
  simp [List.drop_drop]

/-- The characters that are written, and the rest of the buffer. -/
theorem netPacketToChar_append (B : Build) (p : NetPacket) (chardata : List Byte) :
    netPacketToChar B p chardata = netPacketToChar B p [] ++ chardata.drop 34 := by
  rw [netPacketToChar_eq, netPacketToChar_eq B p [], List.drop_nil, List.append_nil]

theorem length_netPacketToChar_nil (B : Build) (p : NetPacket) :
    (netPacketToChar B p []).length = 34 := by
  rw [netPacketToChar_eq]
  simp

theorem length_netPacketToChar (B : Build) (p : NetPacket) {chardata : List Byte}
    (h : 34 ≤ chardata.length) : (netPacketToChar B p chardata).length = chardata.length := by
  rw [netPacketToChar_eq]
  simp
  omega

/-- The packet with its integer fields changed. -/
def NetPacket.mapInts (f : ℕ → ℕ) (p : NetPacket) : NetPacket :=
  { p with version := f p.version, type := f p.type, datalen := f p.datalen, reserve := f p.reserve }

/-- **A header from one host to another**, whatever follows it: the integer fields are stored in the
byte order of the sender and read in that of the receiver. -/
theorem charToNetPacket_netPacketToChar_of_hosts (A B : Build) (p : NetPacket)
    (chardata ys : List Byte) :
    charToNetPacket B (netPacketToChar A p chardata ++ ys) =
      p.mapInts fun n => word B.order (image A.order 4 n) := by
  rw [netPacketToChar_eq]
  have hcheck : ∀ (a b : List Byte), a.length = 6 →
      (List.Vector.ofFn fun i : Fin 16 => (a ++ p.check.toList ++ b).getD (6 + i) 0) = p.check := by
    intro a b ha
    apply List.Vector.ext
    intro i
    rw [List.Vector.get_ofFn, List.append_assoc, List.getD_append_right _ _ _ _ (by omega), ha,
      Nat.add_sub_cancel_left, List.getD_append _ _ _ _ (by simp),
      List.getD_eq_getElem _ _ (by simp)]
    rfl
  have hint : ∀ (a b : List Byte) (n k : ℕ), k = a.length →
      (charToInt32 B ((a ++ int32ToChar A (.ofNat 32 n) ++ b).drop k)).toNat =
        word B.order (image A.order 4 n) := by
    rintro a b n k rfl
    rw [List.append_assoc, List.drop_left, charToInt32_int32ToChar_of_hosts, BitVec.toNat_ofNat]
    exact congrArg _ (image_mod A.order 4 n)
  set v := int32ToChar A (.ofNat 32 p.version) with hv
  set t := int32ToChar A (.ofNat 32 p.type) with ht
  set d := int32ToChar A (.ofNat 32 p.datalen) with hd
  set r := int32ToChar A (.ofNat 32 p.reserve) with hr
  have hl : v.length = 4 := rfl
  unfold charToNetPacket NetPacket.mapInts
  -- the two delimiters stand behind four explicit characters
  congr 1
  · simpa using hint [] ([p.header] ++ [p.tail] ++ p.check.toList ++ t ++ d ++ r ++
      chardata.drop 34 ++ ys) p.version 0 rfl
  · simpa only [List.append_assoc] using
      hcheck (v ++ [p.header] ++ [p.tail]) (t ++ d ++ r ++ chardata.drop 34 ++ ys) (by simp [hl])
  · simpa using hint (v ++ [p.header] ++ [p.tail] ++ p.check.toList)
      (d ++ r ++ chardata.drop 34 ++ ys) p.type 22 (by simp [hl])
  · simpa using hint (v ++ [p.header] ++ [p.tail] ++ p.check.toList ++ t)
      (r ++ chardata.drop 34 ++ ys) p.datalen 26 (by simp [hl, ht])
  · simpa using hint (v ++ [p.header] ++ [p.tail] ++ p.check.toList ++ t ++ d)
      (chardata.drop 34 ++ ys) p.reserve 30 (by simp [hl, ht, hd])

/-- **The header codec round trip**: the packet with its integer fields cut to 32 bits, whatever
follows the header. -/
theorem charToNetPacket_netPacketToChar (B : Build) (p : NetPacket) (chardata ys : List Byte) :
    charToNetPacket B (netPacketToChar B p chardata ++ ys) = p.truncate := by
  have hint : ∀ n, word B.order (image B.order 4 n) = n % 2 ^ 32 := by
    intro n
    rw [← image_mod, word_image B.order (Nat.mod_lt _ (by norm_num))]
    norm_num
  rw [charToNetPacket_netPacketToChar_of_hosts]
  simp only [NetPacket.mapInts, NetPacket.truncate, hint]

end SimpleUv
