import Mathlib.Data.Nat.Bitwise
import Holdem.Support.Endian

/-!
# Session — NetMsg

The 20-byte header of a frame, `MsgHeader`, and its byte order.  The struct is packed, so its image
in memory is the image of its four fields in turn, each in the order of the host; `ToNetOrder` and
`UnpackFromArray` go between the order of the host and the order of the network.

`wire` and `decode` say what the two are for: the four fields most significant byte first.  On
either host the bytes of `ToNetOrder` are `wire` (`bytes_toNetOrder`), and `UnpackFromArray` is
`decode` (`unpackFromArray_eq`).
-/

namespace Holdem
open Support

/-- The byte order of the host.  `htonl` is the identity on one and the byte swap on the other. -/
inductive HostOrder where
  | big
  | little

/-- The image of a `k`-byte integer in the memory of the host. -/
def HostOrder.store : HostOrder → Nat → Nat → List UInt8
  | .big,    k, n => bytesBE k n
  | .little, k, n => (bytesBE k n).reverse

/-- The integer with this image in the memory of the host. -/
def HostOrder.load : HostOrder → List UInt8 → Nat
  | .big,    bs => ofBytesBE bs
  | .little, bs => ofBytesBE bs.reverse

/-- `htonl`. -/
def htonl : HostOrder → UInt32 → UInt32
  | .big,    x => x
  | .little, x => UInt32.ofNat (ofBytesBE (bytesBE 4 x.toNat).reverse)

/-- `ntohl`. -/
def ntohl (o : HostOrder) (x : UInt32) : UInt32 := htonl o x

/-- The macro `htonl64`. -/
def htonl64 (o : HostOrder) (x : UInt64) : UInt64 :=
  if 1 = htonl o 1 then x
  else ((htonl o (x &&& (0xFFFFFFFF : UInt64)).toUInt32).toUInt64 <<< (32 : UInt64)) |||
    (htonl o (x >>> (32 : UInt64)).toUInt32).toUInt64

/-- The macro `ntohl64`. -/
def ntohl64 (o : HostOrder) (x : UInt64) : UInt64 :=
  if 1 = ntohl o 1 then x
  else ((ntohl o (x &&& (0xFFFFFFFF : UInt64)).toUInt32).toUInt64 <<< (32 : UInt64)) |||
    (ntohl o (x >>> (32 : UInt64)).toUInt32).toUInt64

/-- `MsgHeader`. -/
@[ext] structure MsgHeader where
  m_nLen : UInt32
  m_nCmd : UInt32
  m_nUid : UInt64
  m_nErr : UInt32
  deriving DecidableEq, Repr

namespace MsgHeader

/-- `sizeof(tagMsgHeader)`. -/
def size : Nat := 20

/-- `MsgHeader()`. -/
def zero : MsgHeader := ⟨0, 0, 0, 0⟩

/-- `MsgHeader(len, cmd, uid, err)`.  The length counts the header, modulo `2 ^ 32`. -/
def new (len cmd : UInt32) (uid : UInt64) (err : UInt32) : MsgHeader where
  m_nLen := len + UInt32.ofNat size
  m_nCmd := cmd
  m_nUid := uid
  m_nErr := err

/-- The image of the packed struct in the memory of the host. -/
def bytes (o : HostOrder) (h : MsgHeader) : List UInt8 :=
  o.store 4 h.m_nLen.toNat ++ o.store 4 h.m_nCmd.toNat ++ o.store 8 h.m_nUid.toNat ++
    o.store 4 h.m_nErr.toNat

/-- `MsgHeader::ToNetOrder`. -/
def ToNetOrder (o : HostOrder) (h : MsgHeader) : MsgHeader where
  m_nLen := htonl o h.m_nLen
  m_nCmd := htonl o h.m_nCmd
  m_nErr := htonl o h.m_nErr
  m_nUid := htonl64 o h.m_nUid

/-- `MsgHeader::UnpackFromArray`, on the bytes behind the pointer. -/
def UnpackFromArray (o : HostOrder) (h : MsgHeader) (pData : List UInt8) (nLen : Nat) :
    Bool × MsgHeader :=
  if nLen < size then (false, h)
  else (true, {
    m_nLen := ntohl o (UInt32.ofNat (o.load (pData.take 4)))
    m_nCmd := ntohl o (UInt32.ofNat (o.load ((pData.drop 4).take 4)))
    m_nUid := ntohl64 o (UInt64.ofNat (o.load ((pData.drop 8).take 8)))
    m_nErr := ntohl o (UInt32.ofNat (o.load ((pData.drop 16).take 4))) })

/-- The header on the wire: every field most significant byte first. -/
def wire (h : MsgHeader) : List UInt8 :=
  bytesBE 4 h.m_nLen.toNat ++ bytesBE 4 h.m_nCmd.toNat ++ bytesBE 8 h.m_nUid.toNat ++
    bytesBE 4 h.m_nErr.toNat

/-- The header the first twenty bytes spell on the wire. -/
def decode (bs : List UInt8) : MsgHeader where
  m_nLen := UInt32.ofNat (ofBytesBE (bs.take 4))
  m_nCmd := UInt32.ofNat (ofBytesBE ((bs.drop 4).take 4))
  m_nUid := UInt64.ofNat (ofBytesBE ((bs.drop 8).take 8))
  m_nErr := UInt32.ofNat (ofBytesBE ((bs.drop 16).take 4))

end MsgHeader

/-! ### The byte swaps -/

theorem htonl_little_toNat (x : UInt32) :
    (htonl .little x).toNat = ofBytesBE (bytesBE 4 x.toNat).reverse := by
  have hlt := ofBytesBE_lt (bytesBE 4 x.toNat).reverse
  simp only [List.length_reverse, length_bytesBE] at hlt
  exact UInt32.toNat_ofNat_of_lt hlt

/-- Four bytes in network order, stored by the host. -/
theorem store_htonl (o : HostOrder) (x : UInt32) :
    o.store 4 (htonl o x).toNat = bytesBE 4 x.toNat := by
  cases o with
  | big => rfl
  | little =>
      have h := bytesBE_ofBytesBE (bytesBE 4 x.toNat).reverse
      simp only [List.length_reverse, length_bytesBE] at h
      simp only [HostOrder.store, htonl_little_toNat, h, List.reverse_reverse]

theorem ofBytesBE_reverse {bs : List UInt8} {n : Nat} (h : bs.length = n) :
    ofBytesBE bs.reverse < 256 ^ n ∧ bytesBE n (ofBytesBE bs.reverse) = bs.reverse := by
  subst h
  rw [← List.length_reverse]
  exact ⟨ofBytesBE_lt _, bytesBE_ofBytesBE _⟩

/-- Four bytes loaded by the host, back from network order. -/
theorem ntohl_load (o : HostOrder) {bs : List UInt8} (h : bs.length = 4) :
    ntohl o (UInt32.ofNat (o.load bs)) = UInt32.ofNat (ofBytesBE bs) := by
  cases o with
  | big => rfl
  | little =>
      obtain ⟨hlt, hb⟩ := ofBytesBE_reverse h
      have ht : (UInt32.ofNat (ofBytesBE bs.reverse)).toNat = ofBytesBE bs.reverse :=
        UInt32.toNat_ofNat_of_lt hlt
      simp only [ntohl, htonl, HostOrder.load, ht, hb, List.reverse_reverse]

/-- The two halves of the 64-bit swap change places. -/
theorem htonl64_little_toNat (x : UInt64) :
    (htonl64 .little x).toNat =
      (htonl .little (UInt32.ofNat (x.toNat % 2 ^ 32))).toNat * 2 ^ 32 +
        (htonl .little (UInt32.ofNat (x.toNat / 2 ^ 32))).toNat := by
  have hne : ¬ 1 = htonl .little 1 := by decide
  have hlo : (x &&& (0xFFFFFFFF : UInt64)).toUInt32 = UInt32.ofNat (x.toNat % 2 ^ 32) := by
    apply UInt32.toNat_inj.mp
    have hmask := Nat.and_two_pow_sub_one_eq_mod x.toNat 32
    simp only [UInt64.toNat_toUInt32, UInt64.toNat_and, UInt32.toNat_ofNat']
    exact congrArg (· % 2 ^ 32) hmask
  have hhi : (x >>> (32 : UInt64)).toUInt32 = UInt32.ofNat (x.toNat / 2 ^ 32) := by
    apply UInt32.toNat_inj.mp
    have hshift : (x >>> (32 : UInt64)).toNat = x.toNat / 2 ^ 32 := by
      rw [UInt64.toNat_shiftRight]
      exact Nat.shiftRight_eq_div_pow _ _
    simp only [UInt64.toNat_toUInt32, hshift, UInt32.toNat_ofNat']
  have hl := (htonl .little (UInt32.ofNat (x.toNat % 2 ^ 32))).toNat_lt
  have hr := (htonl .little (UInt32.ofNat (x.toNat / 2 ^ 32))).toNat_lt
  rw [htonl64, if_neg hne, hlo, hhi, UInt64.toNat_or, UInt64.toNat_shiftLeft]
  simp only [UInt32.toNat_toUInt64]
  have hsl : ∀ a : Nat, a < 2 ^ 32 → a <<< ((32 : UInt64).toNat % 64) % 2 ^ 64 = a <<< 32 := by
    intro a ha
    rw [show (32 : UInt64).toNat % 64 = 32 from rfl, Nat.shiftLeft_eq, Nat.mod_eq_of_lt]
    omega
  rw [hsl _ hl, ← Nat.shiftLeft_add_eq_or_of_lt hr, Nat.shiftLeft_eq]

/-- Eight bytes in network order, stored by the host. -/
theorem store_htonl64 (o : HostOrder) (x : UInt64) :
    o.store 8 (htonl64 o x).toNat = bytesBE 8 x.toNat := by
  cases o with
  | big => rfl
  | little =>
      have hx := x.toNat_lt
      have hlo : (UInt32.ofNat (x.toNat % 2 ^ 32)).toNat = x.toNat % 2 ^ 32 :=
        UInt32.toNat_ofNat_of_lt (Nat.mod_lt _ (by decide))
      have hhi : (UInt32.ofNat (x.toNat / 2 ^ 32)).toNat = x.toNat / 2 ^ 32 :=
        UInt32.toNat_ofNat_of_lt (by show _ < 2 ^ 32; omega)
      have h₁ := store_htonl .little (UInt32.ofNat (x.toNat % 2 ^ 32))
      have h₂ := store_htonl .little (UInt32.ofNat (x.toNat / 2 ^ 32))
      have hlt : (htonl .little (UInt32.ofNat (x.toNat / 2 ^ 32))).toNat < 256 ^ 4 :=
        UInt32.toNat_lt _
      simp only [HostOrder.store, hlo, hhi] at h₁ h₂
      simp only [HostOrder.store, htonl64_little_toNat]
      calc (bytesBE (4 + 4) (_ * 256 ^ 4 + _)).reverse
          = (bytesBE 4 _ ++ bytesBE 4 _).reverse := by rw [bytesBE_mul_add 4 4 _ hlt]
        _ = bytesBE 4 (x.toNat / 256 ^ 4) ++ bytesBE 4 (x.toNat % 256 ^ 4) := by
            rw [List.reverse_append, h₁, h₂]
            rfl
        _ = bytesBE (4 + 4) x.toNat := by rw [bytesBE_mod, ← bytesBE_add]

/-- Eight bytes loaded by the host, back from network order. -/
theorem ntohl64_load (o : HostOrder) {bs : List UInt8} (h : bs.length = 8) :
    ntohl64 o (UInt64.ofNat (o.load bs)) = UInt64.ofNat (ofBytesBE bs) := by
  cases o with
  | big => rfl
  | little =>
      obtain ⟨hlt, hb⟩ := ofBytesBE_reverse h
      have hto : (UInt64.ofNat (ofBytesBE bs.reverse)).toNat = ofBytesBE bs.reverse :=
        UInt64.toNat_ofNat_of_lt hlt
      have hlt' := ofBytesBE_lt bs
      rw [h] at hlt'
      have hswap := store_htonl64 .little (UInt64.ofNat (ofBytesBE bs.reverse))
      simp only [HostOrder.store, hto, hb, List.reverse_inj] at hswap
      have hval := congrArg ofBytesBE hswap
      rw [ofBytesBE_bytesBE] at hval
      apply UInt64.toNat_inj.mp
      calc (ntohl64 .little (UInt64.ofNat (ofBytesBE bs.reverse))).toNat
          = (htonl64 .little (UInt64.ofNat (ofBytesBE bs.reverse))).toNat % 256 ^ 8 :=
            (Nat.mod_eq_of_lt (UInt64.toNat_lt _)).symm
        _ = ofBytesBE bs := hval
        _ = (UInt64.ofNat (ofBytesBE bs)).toNat :=
            (UInt64.toNat_ofNat_of_lt hlt').symm

/-! ### The header on the wire -/

namespace MsgHeader

@[simp] theorem length_wire (h : MsgHeader) : h.wire.length = size := by
  simp only [wire, List.length_append, length_bytesBE, size]

/-- `ToNetOrder` puts the header in network order, on either host. -/
theorem bytes_toNetOrder (o : HostOrder) (h : MsgHeader) : (h.ToNetOrder o).bytes o = h.wire := by
  simp only [bytes, ToNetOrder, wire, store_htonl, store_htonl64]

/-- `UnpackFromArray` reads the header in network order, on either host. -/
theorem unpackFromArray_eq (o : HostOrder) (h : MsgHeader) {pData : List UInt8} {nLen : Nat}
    (hn : size ≤ nLen) (hp : size ≤ pData.length) :
    UnpackFromArray o h pData nLen = (true, decode pData) := by
  have hlen : ∀ i n, i + n ≤ size → ((pData.drop i).take n).length = n := by
    intro i n hi
    rw [List.length_take, List.length_drop]
    omega
  have h₀ : (pData.take 4).length = 4 := hlen 0 4 (by decide)
  simp only [UnpackFromArray, if_neg (Nat.not_lt.mpr hn), decode, ntohl_load o h₀,
    ntohl_load o (hlen 4 4 (by decide)), ntohl64_load o (hlen 8 8 (by decide)),
    ntohl_load o (hlen 16 4 (by decide))]

/-- The header is read back from the wire, whatever follows it. -/
theorem decode_wire_append (h : MsgHeader) (bs : List UInt8) : decode (h.wire ++ bs) = h := by
  have hl : ∀ k n, (bytesBE k n).length = k := length_bytesBE
  have hw : h.wire ++ bs = bytesBE 4 h.m_nLen.toNat ++ (bytesBE 4 h.m_nCmd.toNat ++
      (bytesBE 8 h.m_nUid.toNat ++ (bytesBE 4 h.m_nErr.toNat ++ bs))) := by
    simp only [wire, List.append_assoc]
  have hlen : (h.wire ++ bs).take 4 = bytesBE 4 h.m_nLen.toNat := by
    rw [hw, List.take_left' (hl ..)]
  have hcmd : ((h.wire ++ bs).drop 4).take 4 = bytesBE 4 h.m_nCmd.toNat := by
    rw [hw, List.drop_left' (hl ..), List.take_left' (hl ..)]
  have huid : ((h.wire ++ bs).drop (4 + 4)).take 8 = bytesBE 8 h.m_nUid.toNat := by
    rw [hw, ← List.drop_drop, List.drop_left' (hl ..), List.drop_left' (hl ..),
      List.take_left' (hl ..)]
  have herr : ((h.wire ++ bs).drop (4 + 4 + 8)).take 4 = bytesBE 4 h.m_nErr.toNat := by
    rw [hw, ← List.drop_drop, ← List.drop_drop, List.drop_left' (hl ..), List.drop_left' (hl ..),
      List.drop_left' (hl ..), List.take_left' (hl ..)]
  have h32 : ∀ x : UInt32, UInt32.ofNat (ofBytesBE (bytesBE 4 x.toNat)) = x := fun x => by
    rw [ofBytesBE_bytesBE, Nat.mod_eq_of_lt (show x.toNat < 256 ^ 4 from x.toNat_lt),
      UInt32.ofNat_toNat]
  have h64 : ∀ x : UInt64, UInt64.ofNat (ofBytesBE (bytesBE 8 x.toNat)) = x := fun x => by
    rw [ofBytesBE_bytesBE, Nat.mod_eq_of_lt (show x.toNat < 256 ^ 8 from x.toNat_lt),
      UInt64.ofNat_toNat]
  ext1
  · exact (congrArg (UInt32.ofNat ∘ ofBytesBE) hlen).trans (h32 _)
  · exact (congrArg (UInt32.ofNat ∘ ofBytesBE) hcmd).trans (h32 _)
  · exact (congrArg (UInt64.ofNat ∘ ofBytesBE) huid).trans (h64 _)
  · exact (congrArg (UInt32.ofNat ∘ ofBytesBE) herr).trans (h32 _)

end MsgHeader

end Holdem
