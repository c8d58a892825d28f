import Holdem.Session.Outbound
import Holdem.Session.Queue

/-!
# Session — Whole

Whether `packSend` writes whole frames.  It appends a header and then a body, and always returns
zero, so that it can only be all-or-nothing (`AllOrNothing`) by storing both.

Where each of the two blocks goes is settled by the offsets and the length of the body.  The sending
side of a session is therefore simulated by the offsets of its write buffer (`step_offsets`), and
`allOrNothing_iff_fits` says exactly which calls of `packSend`, at any point of any run, are
all-or-nothing: those whose header and body have room, one behind the other, in a buffer that can
hold both beside the bytes already queued.
-/

namespace Holdem
open Support

/-- `packSend` stores one complete frame behind the bytes already queued, the length field of its
header being that of the frame, or leaves these bytes as they are and returns a failure. -/
def AllOrNothing (o : HostOrder) (st : Outbound) : SendAct → Prop
  | .packSend uid cmd data =>
    ∃ r b, packSend o st.buffer uid cmd data = some (r, b) ∧
      ((∃ header : MsgHeader, header.m_nLen.toNat = MsgHeader.size + data.length ∧
          b.live = st.buffer.live ++ (header.wire ++ data)) ∨
        b.live = st.buffer.live ∧ r ≠ 0)
  | .sendData _ => True

/-- What the session is made to do, as far as the lengths go. -/
inductive SendLength
  | packSend (n : Nat)
  | sendData (written : Bool)

/-- The action without its bytes. -/
def SendAct.lengths : SendAct → SendLength
  | .packSend _ _ data => .packSend data.length
  | .sendData written  => .sendData written

namespace Offsets

/-- `SessionHandle::packSend`, as far as the offsets go. -/
def packSend (cap : Nat) (p : Offsets) (n : Nat) : Option Offsets := do
  let (_, q) ← p.append cap MsgHeader.size
  let (_, q) ← q.append cap n
  some q

/-- `SessionHandle::sendData`, as far as the offsets go, with an `mBufferEvent` in place. -/
def sendData (p : Offsets) (written : Bool) : Offsets := if written then ⟨p.tail, p.tail⟩ else p

/-- A step of the sending side, as far as the offsets go. -/
def sendStep (cap : Nat) (p : Offsets) : SendLength → Option Offsets
  | .packSend n       => p.packSend cap n
  | .sendData written => some (p.sendData written)

/-- The frame of a body of `n` bytes has room, header and body, and the buffer can hold it beside
the live bytes. -/
def Fits (cap : Nat) (p : Offsets) : SendLength → Prop
  | .packSend n =>
    p.Room cap MsgHeader.size ∧ (p.push cap MsgHeader.size).Room cap n ∧
      p.tail - p.head + (MsgHeader.size + n) ≤ cap
  | .sendData _ => True

instance (cap : Nat) (p : Offsets) : ∀ a, Decidable (p.Fits cap a)
  | .packSend _ => inferInstanceAs (Decidable (_ ∧ _ ∧ _))
  | .sendData _ => isTrue trivial

end Offsets

variable {o : HostOrder}

/-! ### The offsets simulate the sending side -/

/-- Where the offsets are after a block is settled by its length. -/
theorem offsets_of_append {b : SessionBuffer} {data : List UInt8} {r : Bool} {c : SessionBuffer}
    (h : b.append data = some (r, c)) :
    b.offsets.append b.mCapacity data.length = some (r, c.offsets) ∧
      c.mCapacity = b.mCapacity := by
  rw [← SessionBuffer.append_offsets, h]
  exact ⟨rfl, SessionBuffer.append_mCapacity h⟩

theorem offsets_of_append_none {b : SessionBuffer} {data : List UInt8} (h : b.append data = none) :
    b.offsets.append b.mCapacity data.length = none := by
  rw [← SessionBuffer.append_offsets, h]
  rfl

theorem packSend_offsets (b : SessionBuffer) (uid : Int64) (cmd : Int32) (data : List UInt8) :
    b.offsets.packSend b.mCapacity data.length =
      (packSend o b uid cmd data).map fun r => r.2.offsets := by
  let header := MsgHeader.new (UInt32.ofNat data.length) cmd.toUInt32 uid.toUInt64 0
  have hw : header.wire.length = MsgHeader.size := header.length_wire
  rw [packSend_eq, Offsets.packSend, ← hw]
  cases hc : b.append header.wire with
  | none =>
      rw [offsets_of_append_none hc]
      rfl
  | some r =>
      obtain ⟨hoff, hcap⟩ := offsets_of_append hc
      rw [hoff, ← hcap]
      cases hd : r.2.append data with
      | none =>
          simp only [Option.bind_eq_bind, Option.bind_some, offsets_of_append_none hd, hd]
          rfl
      | some r' =>
          simp only [Option.bind_eq_bind, Option.bind_some, (offsets_of_append hd).1, hd]
          rfl

theorem packSend_mCapacity {b b' : SessionBuffer} {uid : Int64} {cmd : Int32}
    {data : List UInt8} {r : Int} (h : packSend o b uid cmd data = some (r, b')) :
    b'.mCapacity = b.mCapacity := by
  rw [packSend_eq, Option.bind_eq_some_iff] at h
  obtain ⟨⟨r₁, c⟩, hc, h⟩ := h
  obtain ⟨⟨r₂, d⟩, hd, h⟩ := Option.bind_eq_some_iff.mp h
  cases h
  exact (SessionBuffer.append_mCapacity hd).trans (SessionBuffer.append_mCapacity hc)

/-- What a step needs of the session: its event is in place, its buffer has the full capacity. -/
structure Outbound.Open (st : Outbound) : Prop where
  event : st.mBufferEvent = true
  cap : st.buffer.mCapacity = capacity

theorem sendData_open {st : Outbound} (h : st.Open) (written : Bool) :
    (sendData st written).Open ∧
      (sendData st written).buffer.offsets = st.buffer.offsets.sendData written := by
  cases written with
  | false =>
      rw [sendData_false]
      exact ⟨h, rfl⟩
  | true =>
      obtain ⟨b, hb, -, hoff, hcap⟩ := sendData_true h.event
      rw [hb]
      exact ⟨⟨h.event, hcap.trans h.cap⟩, hoff⟩

theorem sendStep_open {st st' : Outbound} {a : SendAct} (h : st.Open)
    (hstep : sendStep o st a = some st') : st'.Open := by
  cases a with
  | packSend uid cmd data =>
      simp only [sendStep, Option.bind_eq_bind, Option.bind_eq_some_iff] at hstep
      obtain ⟨⟨r, b⟩, hb, hst'⟩ := hstep
      cases hst'
      exact ⟨h.event, (packSend_mCapacity hb).trans h.cap⟩
  | sendData written =>
      cases hstep
      exact (sendData_open h written).1

/-- A step moves the offsets by its lengths alone. -/
theorem step_offsets {st : Outbound} (h : st.Open) (a : SendAct) :
    st.buffer.offsets.sendStep capacity a.lengths =
      (sendStep o st a).map fun st => st.buffer.offsets := by
  cases a with
  | packSend uid cmd data =>
      have hoff := packSend_offsets (o := o) st.buffer uid cmd data
      rw [h.cap] at hoff
      refine hoff.trans ?_
      simp only [sendStep]
      cases packSend o st.buffer uid cmd data with
      | none => rfl
      | some r => rfl
  | sendData written => exact congrArg some (sendData_open h written).2.symm

/-! ### One call -/

/-- `packSend` never reports a failure. -/
theorem eq_zero_of_packSend {b b' : SessionBuffer} {uid : Int64} {cmd : Int32}
    {data : List UInt8} {r : Int} (h : packSend o b uid cmd data = some (r, b')) : r = 0 := by
  rw [packSend_eq, Option.bind_eq_some_iff] at h
  obtain ⟨_, -, h⟩ := h
  obtain ⟨_, -, h⟩ := Option.bind_eq_some_iff.mp h
  cases h
  rfl

/-- The length field of a frame that fits into a buffer counts header and body. -/
theorem toNat_m_nLen {n : Nat} (cmd : UInt32) (uid : UInt64) (err : UInt32)
    (h : MsgHeader.size + n ≤ capacity) :
    (MsgHeader.new (UInt32.ofNat n) cmd uid err).m_nLen.toNat = MsgHeader.size + n := by
  have hlt : MsgHeader.size + n < 2 ^ 32 := Nat.lt_of_le_of_lt h (by decide)
  rw [MsgHeader.new, ← UInt32.ofNat_add, UInt32.toNat_ofNat', Nat.add_comm n,
    Nat.mod_eq_of_lt hlt]

/-- A call is all-or-nothing exactly when its frame fits. -/
theorem allOrNothing_iff {st : Outbound} (h : st.Open) (a : SendAct) :
    AllOrNothing o st a ↔ st.buffer.offsets.Fits capacity a.lengths := by
  cases a with
  | sendData written => exact Iff.rfl
  | packSend uid cmd data =>
      have hcapacity := h.cap
      constructor
      · rintro ⟨r, b, hb, ⟨header, -, hlive⟩ | ⟨-, hr⟩⟩
        · have hsize := congrArg List.length hlive
          simp only [List.length_append, SessionBuffer.length_live, header.length_wire] at hsize
          have htotal : st.buffer.bufSize + (MsgHeader.size + data.length) ≤
              st.buffer.mCapacity := by
            have := b.tail_le
            rw [← hsize, ← packSend_mCapacity hb, SessionBuffer.bufSize]
            omega
          have hroom : st.buffer.offsets.Room st.buffer.mCapacity MsgHeader.size ∧
              (st.buffer.offsets.push st.buffer.mCapacity MsgHeader.size).Room
                st.buffer.mCapacity data.length := by
            by_contra hno
            exact bufSize_packSend_of_not_room hno htotal (by rw [hcapacity]; decide) hb hsize
          rw [hcapacity] at hroom htotal
          exact ⟨hroom.1, hroom.2, htotal⟩
        · exact absurd (eq_zero_of_packSend hb) hr
      · rintro ⟨h₁, h₂, htotal⟩
        have hlen : MsgHeader.size + data.length ≤ capacity := by omega
        rw [← hcapacity] at h₁ h₂ htotal
        obtain ⟨b, hb, hlive, -, -⟩ := packSend_of_room o uid cmd h₁ h₂ htotal
        exact ⟨0, b, hb, Or.inl ⟨_, toNat_m_nLen _ _ _ hlen, hlive⟩⟩

/-! ### Every run -/

theorem guarded_allOrNothing_iff {st : Outbound} (h : st.Open) (as : List SendAct) :
    Guarded (sendStep o) (AllOrNothing o) st as ↔
      Guarded (Offsets.sendStep capacity) (Offsets.Fits capacity) st.buffer.offsets
        (as.map SendAct.lengths) :=
  guarded_map_iff (f := fun st => st.buffer.offsets) (fun _ a h => step_offsets h a)
    (fun _ _ _ h => sendStep_open h) (fun _ a h => allOrNothing_iff h a) h

theorem start_open (mem : Memory UInt8) : (Outbound.start mem).Open := ⟨rfl, rfl⟩

/-- **Exactly when `packSend` is all-or-nothing.**  Over any run of a session, every call of
`packSend` is all-or-nothing exactly when every frame fits at the offsets the lengths lead to. -/
theorem allOrNothing_iff_fits (o : HostOrder) (mem : Memory UInt8) (as : List SendAct) :
    Guarded (sendStep o) (AllOrNothing o) (.start mem) as ↔
      Guarded (Offsets.sendStep capacity) (Offsets.Fits capacity) ⟨0, 0⟩
        (as.map SendAct.lengths) :=
  guarded_allOrNothing_iff (start_open mem) as

/-- Behind a tail twenty bytes short of the end, the header is stored and the body is refused. -/
theorem not_allOrNothing_last_header :
    ¬ Guarded (sendStep .little) (AllOrNothing .little) (.start fun _ => 0)
      [.packSend 0 2 (List.replicate 131032 0), .sendData true,
        .packSend 0 2 (List.replicate 12 0)] := by
  intro h
  have hfit := (guarded_allOrNothing_iff (start_open fun _ => 0) _).mp h
  simp only [List.map_cons, List.map_nil, SendAct.lengths, List.length_replicate] at hfit
  exact absurd hfit (by decide)

end Holdem
