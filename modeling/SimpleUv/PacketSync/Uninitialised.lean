import SimpleUv.PacketSync.Framing

/-!
# Uninitialised memory on the wire

`CTCPHandle::PacketData` fills four fields of a packet, `PacketData2` the checksum, and `NetPacketToChar`
34 of the `NET_PACKAGE_HEADLEN` bytes of the header. Nobody assigns `version` and `reserve`, and where
`size_t` has 8 bytes nobody writes the last 16 bytes of the header. These are all the bytes of the
string that the object, its type and the constants do not determine (`packetData_eq_iff`).
-/

namespace SimpleUv

namespace CTCPHandle

variable {B : Build} (msg : List Byte) (nMsgType : ℕ)

/-- The string, field by field. -/
theorem packetData_eq (l : Locals B) : packetData B l msg nMsgType =
    serverPacketHead :: (netPacketToChar B
      { l.packet msg nMsgType with check := checksum B msg } [] ++ (l.packchar.toList.drop 34 ++
        (msg ++ [serverPacketTail]))) := by
  let f : Framing B := ⟨l.packet msg nMsgType, some msg, l.packchar, rfl⟩
  show f.wire = _
  rw [f.wire_eq, Framing.tailBytes, netPacketToChar_append, List.append_assoc, List.append_assoc]
  rfl

/-- The characters of a header are those of the packet cut to 32 bits. -/
theorem netPacketToChar_inj {p q : NetPacket} :
    netPacketToChar B p [] = netPacketToChar B q [] ↔ p.truncate = q.truncate := by
  constructor
  · intro h
    have hp := charToNetPacket_netPacketToChar B p [] []
    rw [h, charToNetPacket_netPacketToChar] at hp
    exact hp.symm
  · intro h
    have hfield : ∀ {a b : ℕ}, a % 2 ^ 32 = b % 2 ^ 32 → BitVec.ofNat 32 a = BitVec.ofNat 32 b := by
      intro a b hab
      apply BitVec.eq_of_toNat_eq
      simpa only [BitVec.toNat_ofNat] using hab
    rw [netPacketToChar_eq, netPacketToChar_eq, hfield (congrArg NetPacket.version h),
      hfield (congrArg NetPacket.type h), hfield (congrArg NetPacket.datalen h),
      hfield (congrArg NetPacket.reserve h),
      show p.header = q.header from congrArg (fun x => x.header) h,
      show p.tail = q.tail from congrArg (fun x => x.tail) h,
      show p.check = q.check from congrArg (fun x => x.check) h]

/-- **What the uninitialised memory can change**: two calls with the same object and type return the
same string exactly when their memories agree in `version` and `reserve`, cut to 32 bits, and in the
bytes of the header array behind the 34 written ones. -/
theorem packetData_eq_iff (l l' : Locals B) :
    packetData B l msg nMsgType = packetData B l' msg nMsgType ↔
      l.tmppack.version % 2 ^ 32 = l'.tmppack.version % 2 ^ 32 ∧
        l.tmppack.reserve % 2 ^ 32 = l'.tmppack.reserve % 2 ^ 32 ∧
        l.packchar.toList.drop 34 = l'.packchar.toList.drop 34 := by
  have hpacket : ({ l.packet msg nMsgType with check := checksum B msg } : NetPacket).truncate =
      ({ l'.packet msg nMsgType with check := checksum B msg } : NetPacket).truncate ↔
      l.tmppack.version % 2 ^ 32 = l'.tmppack.version % 2 ^ 32 ∧
        l.tmppack.reserve % 2 ^ 32 = l'.tmppack.reserve % 2 ^ 32 := by
    simp [NetPacket.truncate, Locals.packet]
  rw [packetData_eq, packetData_eq, List.cons.injEq, ← and_assoc, ← hpacket,
    ← netPacketToChar_inj (B := B)]
  constructor
  · rintro ⟨-, h⟩
    obtain ⟨hchars, hrest⟩ := List.append_inj h
      (by rw [length_netPacketToChar_nil, length_netPacketToChar_nil])
    exact ⟨hchars, List.append_cancel_right hrest⟩
  · rintro ⟨hchars, hrest⟩
    rw [hchars, hrest]
    exact ⟨rfl, rfl⟩

/-- A one-byte object of type 7, packed into memory that differs in the version. -/
theorem packetData_ne :
    packetData zeroBuild ⟨⟨0, 0, 0, .replicate 16 0, 0, 0, 0⟩, .replicate _ 0⟩ [0x2a] 7 ≠
      packetData zeroBuild ⟨⟨1, 0, 0, .replicate 16 0, 0, 0, 0⟩, .replicate _ 0⟩ [0x2a] 7 := by
  decide

end CTCPHandle

end SimpleUv
