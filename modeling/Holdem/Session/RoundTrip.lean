import Holdem.Session.Inbound
import Holdem.Session.Outbound

/-!
# Session — Round trip

The two sides of the format together.  What `packSend` appends for a list of messages is the
messages' frames, every header field most significant byte first, and `dispatch` reads exactly these
messages back and leaves nothing, on either host.
-/

namespace Holdem
open Support

/-- A message: a command word, a user and a body. -/
structure Message where
  cmd : UInt32
  uid : UInt64
  data : List UInt8
  deriving DecidableEq, Repr

namespace Message

/-- The message as `packSend` takes it: the command word and the user are signed there. -/
def pack (o : HostOrder) (b : SessionBuffer) (m : Message) : Option (Int × SessionBuffer) :=
  packSend o b m.uid.toInt64 m.cmd.toInt32 m.data

/-- How long the frame of the message is. -/
def packedLength (m : Message) : Nat := MsgHeader.size + m.data.length

/-- The call of `process` that carries the message. -/
def call (m : Message) : Call := ⟨⟨UInt32.ofNat m.packedLength, m.cmd, m.uid, 0⟩, m.data⟩

/-- The message on the wire: every header field most significant byte first, then the body. -/
def wire (m : Message) : List UInt8 :=
  bytesBE 4 m.packedLength ++ bytesBE 4 m.cmd.toNat ++ bytesBE 8 m.uid.toNat ++ bytesBE 4 0 ++
    m.data

end Message

/-- `packSend` for every message, in order. -/
def packAll (o : HostOrder) (b : SessionBuffer) : List Message → Option SessionBuffer
  | []      => some b
  | m :: ms => do
    let (_, b) ← m.pack o b
    packAll o b ms

/-- How long the frames of the messages are together. -/
def packedTotal (ms : List Message) : Nat := (ms.map Message.packedLength).sum

/-! ### One message -/

variable {cmds : CmdRange}

/-- The longest body of a frame that `dispatch` lets pass. -/
def maxBody : Nat := 32747

namespace Message

theorem packedLength_lt {m : Message} (h : m.data.length ≤ maxBody) :
    m.packedLength < maxPackSize := by
  simp only [packedLength, MsgHeader.size, maxPackSize, maxBody] at *
  omega

theorem call_len {m : Message} (h : m.data.length ≤ maxBody) :
    m.call.header.m_nLen.toNat = m.packedLength := by
  have hlt := packedLength_lt h
  exact UInt32.toNat_ofNat_of_lt (Nat.lt_trans hlt (by decide))

/-- The header that `packSend` builds. -/
theorem header_eq (m : Message) :
    MsgHeader.new (UInt32.ofNat m.data.length) m.cmd.toInt32.toUInt32 m.uid.toInt64.toUInt64 0 =
      m.call.header := by
  simp only [MsgHeader.new, call, packedLength, UInt32.toUInt32_toInt32, UInt64.toUInt64_toInt64,
    Nat.add_comm MsgHeader.size, UInt32.ofNat_add]

/-- The frame of the message on the wire. -/
theorem packedFrame_eq {m : Message} (h : m.data.length ≤ maxBody) :
    packedFrame m.uid.toInt64 m.cmd.toInt32 m.data = m.wire := by
  rw [packedFrame, header_eq, MsgHeader.wire, call_len h]
  rfl

/-- The frame of a message, when `dispatch` accepts its command word. -/
def frame (m : Message) (h : m.data.length ≤ maxBody)
    (hcmd : cmds.first ≤ m.cmd ∧ m.cmd ≤ cmds.last) : Frame cmds where
  header := m.call.header
  body := m.data
  accepted := by
    refine ⟨?_, ?_, hcmd⟩
    · rw [call_len h]
      exact Nat.le_add_right _ _
    · rw [call_len h]
      exact packedLength_lt h
  len_eq := call_len h

theorem bytes_frame {m : Message} (h : m.data.length ≤ maxBody)
    (hcmd : cmds.first ≤ m.cmd ∧ m.cmd ≤ cmds.last) : (m.frame h hcmd).bytes = m.wire := by
  rw [← packedFrame_eq h, packedFrame, header_eq]
  rfl

end Message

/-! ### The whole list -/

/-- Messages that `dispatch` accepts, as frames. -/
theorem exists_frames {ms : List Message} (hcmd : ∀ m ∈ ms, cmds.first ≤ m.cmd ∧ m.cmd ≤ cmds.last)
    (hbody : ∀ m ∈ ms, m.data.length ≤ maxBody) :
    ∃ fs : List (Frame cmds), fs.map Frame.call = ms.map Message.call ∧
      (framing cmds).encodeAll fs = ms.flatMap Message.wire := by
  induction ms with
  | nil => exact ⟨[], rfl, rfl⟩
  | cons m ms ih =>
      obtain ⟨fs, hcalls, hbytes⟩ := ih (fun m hm => hcmd m (List.mem_cons_of_mem _ hm))
        (fun m hm => hbody m (List.mem_cons_of_mem _ hm))
      have hm := hbody m List.mem_cons_self
      have hc := hcmd m List.mem_cons_self
      refine ⟨m.frame hm hc :: fs, ?_, ?_⟩
      · rw [List.map_cons, hcalls]
        rfl
      · rw [List.flatMap_cons, ← hbytes, ← Message.bytes_frame hm hc]
        rfl

/-- Packed behind one another, the messages stay in place as long as they fit. -/
theorem packAll_live {o : HostOrder} {ms : List Message} {b : SessionBuffer}
    (hbody : ∀ m ∈ ms, m.data.length ≤ maxBody) (hfit : b.mTail + packedTotal ms ≤ b.mCapacity) :
    ∃ w, packAll o b ms = some w ∧ w.live = b.live ++ ms.flatMap Message.wire := by
  induction ms generalizing b with
  | nil => exact ⟨b, rfl, (List.append_nil _).symm⟩
  | cons m ms ih =>
      have hsum : packedTotal (m :: ms) = m.packedLength + packedTotal ms := List.sum_cons
      have hle := b.head_le
      simp only [hsum, Message.packedLength] at hfit
      have h₁ : b.mTail + MsgHeader.size ≤ b.mCapacity := by omega
      have hoff : b.offsets.push b.mCapacity MsgHeader.size = ⟨b.mHead, b.mTail + MsgHeader.size⟩ :=
        if_pos h₁
      have h₂ : b.mTail + MsgHeader.size + m.data.length ≤ b.mCapacity := by omega
      have h₁' : b.offsets.Room b.mCapacity MsgHeader.size := Or.inl h₁
      have h₂' : (b.offsets.push b.mCapacity MsgHeader.size).Room b.mCapacity m.data.length := by
        rw [hoff]
        exact Or.inl h₂
      obtain ⟨c, hc, hlive, hcoff, hcap⟩ := packSend_of_room o m.uid.toInt64 m.cmd.toInt32 h₁'
        h₂' (by simp only [SessionBuffer.bufSize]; omega)
      have htail : c.mTail = b.mTail + MsgHeader.size + m.data.length := by
        have := congrArg Offsets.tail hcoff
        rwa [hoff, Offsets.push, if_pos h₂] at this
      obtain ⟨w, hw, hwlive⟩ := ih (fun m hm => hbody m (List.mem_cons_of_mem _ hm))
        (b := c) (by omega)
      refine ⟨w, ?_, ?_⟩
      · simp only [packAll, Message.pack, hc, Option.bind_eq_bind, Option.bind_some, hw]
      · rw [hwlive, hlive, Message.packedFrame_eq (hbody m List.mem_cons_self), List.append_assoc,
          List.flatMap_cons]

/-- **Round trip.**  Messages whose frames fit into a fresh buffer are packed to their wire form,
and `dispatch` processes exactly these messages from it, in order, and leaves the buffer empty. -/
theorem dispatch_packAll (cmds : CmdRange) (o o' : HostOrder) (mem : Memory UInt8)
    (ms : List Message) (hcmd : ∀ m ∈ ms, cmds.first ≤ m.cmd ∧ m.cmd ≤ cmds.last)
    (hbody : ∀ m ∈ ms, m.data.length ≤ maxBody) (hfit : packedTotal ms ≤ capacity) :
    ∃ w, packAll o (.new mem) ms = some w ∧ w.live = ms.flatMap Message.wire ∧
      ∀ r : SessionBuffer, r.live = w.live →
        ∃ r', dispatch o' cmds record r [] = some (false, r', ms.map Message.call) ∧
          r'.bufSize = 0 := by
  obtain ⟨w, hw, hlive⟩ := packAll_live (o := o) (b := .new mem) hbody
    (by rw [SessionBuffer.new, Nat.zero_add]; exact hfit)
  rw [SessionBuffer.live_new, List.nil_append] at hlive
  refine ⟨w, hw, hlive, fun r hr => ?_⟩
  obtain ⟨fs, hcalls, hbytes⟩ := exists_frames hcmd hbody
  have hparse := Framing.parse_encodeAll (F := framing cmds) fs []
  rw [List.append_nil, hbytes, Framing.parse_nil, List.append_nil, ← hlive, ← hr] at hparse
  obtain ⟨r', hdis, hrest, -, -⟩ : ∃ r', dispatch o' cmds record r [] = _ ∧ _ := dispatch_eq r []
  rw [hparse] at hdis hrest
  refine ⟨r', ?_, ?_⟩
  · rw [hdis, processAll_record, List.nil_append, hcalls]
  · rw [← SessionBuffer.length_live, hrest]
    rfl

/-- A request for user 258 and a keep-alive. -/
theorem dispatch_packAll_two :
    ∃ w, packAll .little (.new fun _ => 0) [⟨5, 258, [7, 8]⟩, ⟨3, 1, []⟩] = some w ∧
      w.live = [0, 0, 0, 22, 0, 0, 0, 5, 0, 0, 0, 0, 0, 0, 1, 2, 0, 0, 0, 0, 7, 8,
        0, 0, 0, 20, 0, 0, 0, 3, 0, 0, 0, 0, 0, 0, 0, 1, 0, 0, 0, 0] ∧
      ∀ r : SessionBuffer, r.live = w.live →
        ∃ r', dispatch .big sixCommands record r [] =
          some (false, r', [⟨⟨22, 5, 258, 0⟩, [7, 8]⟩, ⟨⟨20, 3, 1, 0⟩, []⟩]) ∧ r'.bufSize = 0 :=
  dispatch_packAll sixCommands .little .big (fun _ => 0)
    [⟨5, 258, [7, 8]⟩, ⟨3, 1, []⟩] (by decide) (by decide) (by decide)

end Holdem
