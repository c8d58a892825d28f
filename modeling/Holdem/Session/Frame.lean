import Holdem.Session.NetMsg
import Holdem.Support.Framing

/-!
# Session — Frame

The frames `dispatch` accepts, as a framing of the byte stream.  A `Frame` is a header and a body
that agree: the length field is that of header and body together, it is below 32768, and the command
word lies between the two `alg.pb.h` constants of `CmdRange`.

`frameHead` is what the tests of `dispatch` say of the bytes at the head of a stream, in terms of
the wire alone.  `framing` puts it together with the way a frame is written; its laws hold because
the header is read back from the wire (`MsgHeader.decode_wire_append`) and is determined by its
twenty bytes (`MsgHeader.wire_decode`).
-/

namespace Holdem
open Support

/-- `alg::ALG_CMD_NODE_REGISER_REQ` and `alg::ALG_CMD_ROBOT_DECIDE_RSP`, the first and the last
command word `dispatch` accepts. -/
structure CmdRange where
  first : UInt32
  last : UInt32

/-- The command words 1 to 6, for the examples. -/
def sixCommands : CmdRange := ⟨1, 6⟩

/-- `int maxPackSize`. -/
def maxPackSize : Nat := 32768

/-- A header `dispatch` lets pass. -/
def CmdRange.Accepts (cmds : CmdRange) (h : MsgHeader) : Prop :=
  MsgHeader.size ≤ h.m_nLen.toNat ∧ h.m_nLen.toNat < maxPackSize ∧
    cmds.first ≤ h.m_nCmd ∧ h.m_nCmd ≤ cmds.last

instance (cmds : CmdRange) (h : MsgHeader) : Decidable (cmds.Accepts h) :=
  inferInstanceAs (Decidable (_ ∧ _ ∧ _ ∧ _))

/-- A well-formed frame. -/
@[ext] structure Frame (cmds : CmdRange) where
  header : MsgHeader
  body : List UInt8
  accepted : cmds.Accepts header
  len_eq : header.m_nLen.toNat = MsgHeader.size + body.length

variable {cmds : CmdRange}

/-- The frame on the wire. -/
def Frame.bytes (f : Frame cmds) : List UInt8 := f.header.wire ++ f.body

theorem Frame.length_bytes (f : Frame cmds) : f.bytes.length = f.header.m_nLen.toNat := by
  rw [Frame.bytes, List.length_append, MsgHeader.length_wire, f.len_eq]

theorem Frame.bytes_ne_nil (f : Frame cmds) : f.bytes ≠ [] := by
  intro h
  have hlen := f.length_bytes
  have haccepted := f.accepted.1
  rw [h, List.length_nil] at hlen
  rw [← hlen] at haccepted
  exact absurd haccepted (Nat.not_succ_le_zero _)

/-- The first frame of a stream with enough bytes for its header's length. -/
def Frame.ofBytes (l : List UInt8) (h : cmds.Accepts (MsgHeader.decode l))
    (hl : (MsgHeader.decode l).m_nLen.toNat ≤ l.length) : Frame cmds where
  header := MsgHeader.decode l
  body := (l.drop MsgHeader.size).take ((MsgHeader.decode l).m_nLen.toNat - MsgHeader.size)
  accepted := h
  len_eq := by
    have h20 := h.1
    rw [List.length_take, List.length_drop]
    omega

/-- What the tests of `dispatch` find at the head of the stream. -/
def frameHead (cmds : CmdRange) (l : List UInt8) : Head UInt8 (Frame cmds) :=
  if l.length < MsgHeader.size then .more
  else if h : cmds.Accepts (MsgHeader.decode l) then
    if hl : (MsgHeader.decode l).m_nLen.toNat ≤ l.length then
      .frame (Frame.ofBytes l h hl) (l.drop (MsgHeader.decode l).m_nLen.toNat)
    else .more
  else .bad

theorem frameHead_eq_more {l : List UInt8} (h : frameHead cmds l = .more) :
    l.length < MsgHeader.size ∨ cmds.Accepts (MsgHeader.decode l) ∧
      l.length < (MsgHeader.decode l).m_nLen.toNat := by
  rw [frameHead] at h
  split at h
  · exact Or.inl (by assumption)
  · split at h
    · rename_i hacc
      split at h
      · cases h
      · rename_i hle
        exact Or.inr ⟨hacc, Nat.not_le.mp hle⟩
    · cases h

theorem frameHead_eq_bad {l : List UInt8} (h : frameHead cmds l = .bad) :
    MsgHeader.size ≤ l.length ∧ ¬ cmds.Accepts (MsgHeader.decode l) := by
  rw [frameHead] at h
  split at h
  · cases h
  · rename_i hlen
    split at h
    · split at h <;> cases h
    · rename_i hacc
      exact ⟨Nat.not_lt.mp hlen, hacc⟩

theorem frameHead_eq_frame {l r : List UInt8} {f : Frame cmds} (h : frameHead cmds l = .frame f r) :
    MsgHeader.size ≤ l.length ∧ cmds.Accepts (MsgHeader.decode l) ∧
      (MsgHeader.decode l).m_nLen.toNat ≤ l.length ∧ f.header = MsgHeader.decode l ∧
      f.body = (l.drop MsgHeader.size).take ((MsgHeader.decode l).m_nLen.toNat - MsgHeader.size) ∧
      r = l.drop (MsgHeader.decode l).m_nLen.toNat := by
  rw [frameHead] at h
  split at h
  · cases h
  · rename_i hlen
    split at h
    · rename_i hacc
      split at h
      · rename_i hle
        cases h
        exact ⟨Nat.not_lt.mp hlen, hacc, hle, rfl, rfl, rfl⟩
      · cases h
    · cases h

theorem frameHead_eq_bad_iff {l : List UInt8} :
    frameHead cmds l = .bad ↔ MsgHeader.size ≤ l.length ∧ ¬ cmds.Accepts (MsgHeader.decode l) := by
  refine ⟨frameHead_eq_bad, ?_⟩
  rintro ⟨hlen, hacc⟩
  rw [frameHead, if_neg (Nat.not_lt.mpr hlen), dif_neg hacc]

/-! ### Headers and their bytes -/

namespace MsgHeader

theorem decode_append {l : List UInt8} (h : size ≤ l.length) (c : List UInt8) :
    decode (l ++ c) = decode l := by
  have hs : size = 20 := rfl
  have hfield : ∀ i n, i + n ≤ size → ((l ++ c).drop i).take n = (l.drop i).take n := by
    intro i n hi
    rw [List.drop_append_of_le_length (by omega),
      List.take_append_of_le_length (by rw [List.length_drop]; omega)]
  have hfirst : (l ++ c).take 4 = l.take 4 := hfield 0 4 (by decide)
  simp only [decode, hfirst, hfield 4 4 (by decide), hfield 8 8 (by decide),
    hfield 16 4 (by decide)]

/-- A header is determined by its twenty bytes. -/
theorem wire_decode {l : List UInt8} (h : size ≤ l.length) : (decode l).wire = l.take size := by
  have hs : size = 20 := rfl
  have hfield : ∀ i n, i + n ≤ size →
      bytesBE n (ofBytesBE ((l.drop i).take n)) = (l.drop i).take n := by
    intro i n hi
    have hlen : ((l.drop i).take n).length = n := by
      rw [List.length_take, List.length_drop]
      omega
    conv_lhs => rw [← hlen]
    exact (congrArg _ (by rw [hlen])).trans (bytesBE_ofBytesBE _)
  have h32 : ∀ i, i + 4 ≤ size →
      bytesBE 4 (UInt32.ofNat (ofBytesBE ((l.drop i).take 4))).toNat = (l.drop i).take 4 := by
    intro i hi
    rw [UInt32.toNat_ofNat', show (2 ^ 32 : Nat) = 256 ^ 4 from rfl, bytesBE_mod, hfield i 4 hi]
  have h64 : bytesBE 8 (UInt64.ofNat (ofBytesBE ((l.drop 8).take 8))).toNat =
      (l.drop 8).take 8 := by
    rw [UInt64.toNat_ofNat', show (2 ^ 64 : Nat) = 256 ^ 8 from rfl, bytesBE_mod,
      hfield 8 8 (by decide)]
  have hlen : bytesBE 4 (UInt32.ofNat (ofBytesBE (l.take 4))).toNat = l.take 4 :=
    h32 0 (by decide)
  simp only [wire, decode, hlen, h32 4 (by decide), h64, h32 16 (by decide), hs]
  rw [show (20 : Nat) = 4 + 4 + 8 + 4 from rfl, List.take_add, List.take_add, List.take_add]

end MsgHeader

/-! ### The framing -/

theorem frameHead_of_frame {l r : List UInt8} {f : Frame cmds}
    (h : frameHead cmds l = .frame f r) : l = f.bytes ++ r := by
  obtain ⟨hlen, hacc, -, hh, hb, rfl⟩ := frameHead_eq_frame h
  rw [Frame.bytes, hh, hb, MsgHeader.wire_decode hlen, ← List.take_add,
    Nat.add_sub_cancel' hacc.1, List.take_append_drop]

theorem frameHead_encode (f : Frame cmds) (r : List UInt8) :
    frameHead cmds (f.bytes ++ r) = .frame f r := by
  have hdec : MsgHeader.decode (f.bytes ++ r) = f.header := by
    rw [Frame.bytes, List.append_assoc, MsgHeader.decode_wire_append]
  have h20 := f.accepted.1
  have hlen : ¬ (f.bytes ++ r).length < MsgHeader.size := by
    rw [List.length_append, f.length_bytes]
    omega
  have hle : f.header.m_nLen.toNat ≤ (f.bytes ++ r).length := by
    rw [List.length_append, f.length_bytes]
    omega
  have hbody : ((f.bytes ++ r).drop MsgHeader.size).take (f.header.m_nLen.toNat - MsgHeader.size) =
      f.body := by
    rw [Frame.bytes, List.append_assoc, List.drop_left' f.header.length_wire,
      List.take_left' (by have := f.len_eq; omega)]
  have hrest : (f.bytes ++ r).drop f.header.m_nLen.toNat = r := List.drop_left' f.length_bytes
  rw [frameHead, if_neg hlen, dif_pos (by rw [hdec]; exact f.accepted),
    dif_pos (by rw [hdec]; exact hle)]
  refine congrArg₂ Head.frame (Frame.ext hdec ?_) ?_
  · simp only [Frame.ofBytes, hdec, hbody]
  · rw [hdec, hrest]

theorem frameHead_bad_append {l : List UInt8} (h : frameHead cmds l = .bad) (c : List UInt8) :
    frameHead cmds (l ++ c) = .bad := by
  obtain ⟨hlen, hacc⟩ := frameHead_eq_bad h
  have hdec := MsgHeader.decode_append hlen c
  rw [frameHead, if_neg (by rw [List.length_append]; omega), dif_neg (by rwa [hdec])]

/-- The frames `dispatch` accepts, as a framing of the byte stream. -/
def framing (cmds : CmdRange) : Framing UInt8 (Frame cmds) where
  encode := Frame.bytes
  head := frameHead cmds
  encode_ne_nil := Frame.bytes_ne_nil
  head_nil := rfl
  head_encode := frameHead_encode
  of_frame := frameHead_of_frame
  bad_append h c := frameHead_bad_append h c

/-- A stream that needs more is shorter than the longest frame. -/
theorem length_succ_lt_of_frameHead_more {l : List UInt8} (h : frameHead cmds l = .more) :
    l.length + 1 < maxPackSize := by
  rcases frameHead_eq_more h with h | ⟨hacc, h⟩
  · exact Nat.lt_trans (Nat.succ_lt_succ h) (by decide)
  · exact Nat.lt_of_le_of_lt h hacc.2.1

theorem length_lt_of_frameHead_more {l : List UInt8} (h : frameHead cmds l = .more) :
    l.length < maxPackSize :=
  Nat.lt_of_succ_lt (length_succ_lt_of_frameHead_more h)

end Holdem
