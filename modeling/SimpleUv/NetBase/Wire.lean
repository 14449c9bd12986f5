import SimpleUv.NetBase.Int64

/-!
# Headers on the wire

On one host the header codec is a bijection between 34 characters and the packets whose integer fields
have 32 bits (`headerCodec`). Between hosts it is not: the integers stand on the wire in the byte order
of the sender, since the conversion to network byte order is undone by the shifts behind it. A host
with the other byte order reads them reversed (`hostIndependent_iff`).
-/

namespace SimpleUv

open Foundations

/-! ## The converse round trip -/

/-- The header of a packet decoded from 34 characters consists of these characters. -/
theorem netPacketToChar_charToNetPacket (B : Build) {cs : List Byte} (h : cs.length = 34)
    (chardata : List Byte) :
    netPacketToChar B (charToNetPacket B cs) chardata = cs ++ chardata.drop 34 := by
  have hint : ∀ k, k ≤ 30 →
      int32ToChar B (.ofNat 32 (charToInt32 B (cs.drop k)).toNat) = slice cs k 4 := by
    intro k hk
    rw [BitVec.ofNat_toNat, BitVec.setWidth_eq, int32ToChar_charToInt32]
    · rfl
    · rw [List.length_drop]
      omega
  have hone : ∀ k, k < 34 → [cs.getD k 0] = slice cs k 1 := by
    intro k hk
    rw [slice, List.getD_eq_getElem _ _ (by omega), List.drop_eq_getElem_cons (by omega)]
    rfl
  have hcheck : (charToNetPacket B cs).check.toList = slice cs 6 16 := by
    apply List.ext_getElem
    · rw [List.Vector.toList_length, length_slice (by omega)]
    · intro i hi hi'
      rw [List.Vector.toList_length] at hi
      simp only [charToNetPacket, List.Vector.toList_ofFn, List.getElem_ofFn, slice,
        List.getElem_take, List.getElem_drop]
      exact List.getD_eq_getElem _ _ (by omega)
  have hall : slice cs 0 4 ++ slice cs 4 1 ++ slice cs 5 1 ++ slice cs 6 16 ++ slice cs 22 4 ++
      slice cs 26 4 ++ slice cs 30 4 = cs := by
    rw [slice_append_slice cs 0 4 1, slice_append_slice cs 0 5 1, slice_append_slice cs 0 6 16,
      slice_append_slice cs 0 22 4, slice_append_slice cs 0 26 4, slice_append_slice cs 0 30 4,
      show 30 + 4 = cs.length from h.symm, slice_self]
  have h₀ := hint 0 (by omega)
  rw [List.drop_zero] at h₀
  rw [netPacketToChar_eq, hcheck]
  simp only [charToNetPacket]
  rw [h₀, hint 22 (by omega), hint 26 (by omega), hint 30 (by omega), hone 4 (by omega),
    hone 5 (by omega), hall]

/-- **The header codec is a bijection.** On a build of either width of `size_t`, on a host of either
byte order, a packet whose integer fields have 32 bits is read back, and 34 characters are reproduced.
The buffer may be longer. -/
theorem headerCodec (B : Build) (chardata : List Byte) :
    (∀ p : NetPacket, p.version < 2 ^ 32 → p.type < 2 ^ 32 → p.datalen < 2 ^ 32 →
        p.reserve < 2 ^ 32 → charToNetPacket B (netPacketToChar B p chardata) = p) ∧
      ∀ cs : List Byte, cs.length = 34 →
        netPacketToChar B (charToNetPacket B cs) chardata = cs ++ chardata.drop 34 := by
  refine ⟨fun p hv ht hd hr => ?_, fun cs h => netPacketToChar_charToNetPacket B h chardata⟩
  have := charToNetPacket_netPacketToChar B p chardata []
  rwa [List.append_nil, p.truncate_eq hv ht hd hr] at this

/-! ## Two hosts -/

/-- The bytes of the number read the same in both directions. -/
def Palindromic (k n : ℕ) : Prop := (toBytes k n).reverse = toBytes k n

instance (k n : ℕ) : Decidable (Palindromic k n) := by
  unfold Palindromic
  infer_instance

theorem image_eq_image {a b : ByteOrder} {k n : ℕ} :
    image a k n = image b k n ↔ a = b ∨ Palindromic k n := by
  unfold Palindromic
  cases a <;> cases b <;> simp [image, eq_comm]

/-- An integer is read back on another host exactly when the hosts have the same byte order or its
bytes read the same in both directions. -/
theorem word_image_iff {a b : ByteOrder} {k n : ℕ} (h : n < 256 ^ k) :
    word b (image a k n) = n ↔ a = b ∨ Palindromic k n := by
  rw [← image_eq_image]
  constructor
  · intro hn
    conv_rhs => rw [← hn]
    rw [image_word b (length_image a k n)]
  · intro himage
    rw [himage, word_image b h]

theorem NetPacket.mapInts_eq {p : NetPacket} {f : ℕ → ℕ} : p.mapInts f = p ↔
    f p.version = p.version ∧ f p.type = p.type ∧ f p.datalen = p.datalen ∧ f p.reserve = p.reserve := by
  cases p
  simp only [NetPacket.mapInts, NetPacket.mk.injEq, true_and]

/-- The most significant byte of a value of `w` bits. -/
def topByte {w : ℕ} (n : BitVec w) : Byte := n.extractLsb' (w - 8) 8

/-- The least significant byte. -/
def bottomByte {w : ℕ} (n : BitVec w) : Byte := n.extractLsb' 0 8

theorem headD_int32ToChar (B : Build) (n : BitVec 32) :
    (int32ToChar B n).getD 0 0 = topByte n ↔ B.order = .big ∨ topByte n = bottomByte n := by
  rw [int32ToChar_eq]
  cases B.order
  · rw [image, toBytes_toNat]
    show bottomByte n = topByte n ↔ _
    simp [eq_comm]
  · rw [image, toBytes_toNat]
    exact ⟨fun _ => .inl rfl, fun _ => rfl⟩

theorem headD_int64ToChar (B : Build) (n : BitVec 64) :
    (int64ToChar B n).getD 0 0 = topByte n ↔ B.order = .big ∨ topByte n = bottomByte n := by
  rw [int64ToChar_eq]
  cases B.order
  · rw [image, toBytes_toNat]
    show bottomByte n = topByte n ↔ _
    simp [eq_comm]
  · rw [image, toBytes_toNat]
    exact ⟨fun _ => .inl rfl, fun _ => rfl⟩

/-- **Headers depend on the hosts.** A packet that one host writes is read on another exactly when the
hosts have the same byte order or its integer fields read the same in both directions; and the first
character is the most significant byte of the value exactly on a big-endian host, or when it is the
least significant byte as well. -/
theorem hostIndependent_iff (A B : Build) :
    (∀ (p : NetPacket) (chardata : List Byte), p.version < 2 ^ 32 → p.type < 2 ^ 32 →
        p.datalen < 2 ^ 32 → p.reserve < 2 ^ 32 →
        (charToNetPacket B (netPacketToChar A p chardata) = p ↔
          A.order = B.order ∨ Palindromic 4 p.version ∧ Palindromic 4 p.type ∧
            Palindromic 4 p.datalen ∧ Palindromic 4 p.reserve)) ∧
      (∀ n, (int32ToChar A n).getD 0 0 = topByte n ↔
        A.order = .big ∨ topByte n = bottomByte n) ∧
      ∀ n, (int64ToChar A n).getD 0 0 = topByte n ↔
        A.order = .big ∨ topByte n = bottomByte n := by
  refine ⟨fun p chardata hv ht hd hr => ?_, headD_int32ToChar A, headD_int64ToChar A⟩
  have h := charToNetPacket_netPacketToChar_of_hosts A B p chardata []
  rw [List.append_nil] at h
  rw [h, NetPacket.mapInts_eq, word_image_iff hv, word_image_iff ht, word_image_iff hd,
    word_image_iff hr, ← or_and_left, ← or_and_left, ← or_and_left]

/-- A big-endian host. -/
def bigBuild : Build := { zeroBuild with order := .big }

/-- A header of version 1 from a little-endian host has another version on a big-endian one, and its
first character is not the most significant byte of the version. -/
theorem not_hostIndependent :
    ¬ ((∀ (A B : Build) (p : NetPacket) (chardata : List Byte), p.version < 2 ^ 32 →
          p.type < 2 ^ 32 → p.datalen < 2 ^ 32 → p.reserve < 2 ^ 32 →
          charToNetPacket B (netPacketToChar A p chardata) = p)) ∧
      ¬ ∀ (A : Build) (n : BitVec 32), (int32ToChar A n).getD 0 0 = topByte n := by
  constructor
  · intro h
    have := h zeroBuild bigBuild ⟨1, 1, 2, .replicate 16 0, 0, 0, 0⟩ [] (by norm_num) (by norm_num)
      (by norm_num) (by norm_num)
    exact absurd (congrArg NetPacket.version this) (by decide)
  · intro h
    exact absurd (h zeroBuild 1) (by decide)

end SimpleUv
