import Holdem.Session.NetMsg
import Holdem.Session.Room
import Holdem.Support.Runs

/-!
# Session — Outbound

What the session sends.  `packSend` appends a header and then a body to the write buffer, and looks
at the result of neither `append`.  `sendData` hands the live bytes to `bufferevent_write`, and
recycles them when it takes them.

`Sending` is outbound delivery: the bytes taken so far, followed by the live bytes, are the frames
packed so far.  A step keeps it only while there is room for both pieces of the frame, and that is
settled by the lengths of the bodies and by which writes succeed (`FramesFit`).  Sending everything
does not help: it leaves the tail where it is.
-/

namespace Holdem
open Support

/-- `SessionHandle::packSend`. -/
def packSend (o : HostOrder) (b : SessionBuffer) (uid : Int64) (cmd : Int32) (data : List UInt8) :
    Option (Int × SessionBuffer) := do
  let header := MsgHeader.new (UInt32.ofNat data.length) cmd.toUInt32 uid.toUInt64 0
  let (_, b) ← b.append ((header.ToNetOrder o).bytes o)
  let (_, b) ← b.append data
  some (0, b)

/-- The complete frame of a call of `packSend`. -/
def packedFrame (uid : Int64) (cmd : Int32) (data : List UInt8) : List UInt8 :=
  (MsgHeader.new (UInt32.ofNat data.length) cmd.toUInt32 uid.toUInt64 0).wire ++ data

/-- The sending side of a session: whether it has an `mBufferEvent`, its write buffer, the bytes
`bufferevent_write` took so far, and the frames packed so far. -/
structure Outbound where
  mBufferEvent : Bool
  buffer : SessionBuffer
  accepted : List UInt8
  packed : List UInt8

/-- The sending side of a fresh session. -/
def Outbound.start (mem : Memory UInt8) : Outbound := ⟨true, .new mem, [], []⟩

/-- `SessionHandle::send`: how many bytes were sent.  `written` is whether `bufferevent_write`
returns zero. -/
def send (mBufferEvent written : Bool) (data : List UInt8) : Nat :=
  if data.length ≤ 0 then 0
  else if !mBufferEvent then 0
  else if written then data.length else 0

/-- `SessionHandle::sendData`. -/
def sendData (st : Outbound) (written : Bool) : Outbound :=
  if 0 = st.buffer.bufSize then st
  else
    let data := st.buffer.buffer 0 st.buffer.bufSize
    let sent := send st.mBufferEvent written data
    { st with buffer := (st.buffer.recycle sent).2, accepted := st.accepted ++ data.take sent }

/-- What the session is made to do. -/
inductive SendAct
  | packSend (uid : Int64) (cmd : Int32) (data : List UInt8)
  | sendData (written : Bool)

/-- A step of the sending side. -/
def sendStep (o : HostOrder) (st : Outbound) : SendAct → Option Outbound
  | .packSend uid cmd data => do
    let (_, b) ← packSend o st.buffer uid cmd data
    some { st with buffer := b, packed := st.packed ++ packedFrame uid cmd data }
  | .sendData written => some (sendData st written)

/-- What was taken and what is live are the frames packed. -/
def Sending (st : Outbound) : Prop := st.accepted ++ st.buffer.live = st.packed

/-- The unsent frames, `unsent` bytes long now, never exceed the capacity of the buffer. -/
def UnsentFit : Nat → List SendAct → Prop
  | unsent, []                     => unsent ≤ capacity
  | unsent, .packSend _ _ data :: as =>
    unsent ≤ capacity ∧ UnsentFit (unsent + (MsgHeader.size + data.length)) as
  | unsent, .sendData written :: as =>
    unsent ≤ capacity ∧ UnsentFit (if written then 0 else unsent) as

/-- Every frame has room, header and body, with the offsets at `p` now. -/
def FramesFit : Offsets → List SendAct → Prop
  | _, []                        => True
  | p, .packSend _ _ data :: as  =>
    let q := p.push capacity MsgHeader.size
    p.Room capacity MsgHeader.size ∧ q.Room capacity data.length ∧
      FramesFit (q.push capacity data.length) as
  | p, .sendData written :: as   => FramesFit (if written then ⟨p.tail, p.tail⟩ else p) as

instance : ∀ p as, Decidable (FramesFit p as)
  | _, []                       => isTrue trivial
  | p, .packSend _ _ data :: as =>
    have := instDecidableFramesFit
      ((p.push capacity MsgHeader.size).push capacity data.length) as
    inferInstanceAs (Decidable (_ ∧ _ ∧ _))
  | p, .sendData written :: as  =>
    instDecidableFramesFit (if written then ⟨p.tail, p.tail⟩ else p) as

theorem UnsentFit.unsent_le {n : Nat} {as : List SendAct} (h : UnsentFit n as) : n ≤ capacity := by
  cases as with
  | nil => exact h
  | cons a as =>
      cases a with
      | packSend uid cmd data => exact h.1
      | sendData written => exact h.1

/-! ### `packSend` -/

variable {o : HostOrder}

theorem length_packedFrame (uid : Int64) (cmd : Int32) (data : List UInt8) :
    (packedFrame uid cmd data).length = MsgHeader.size + data.length := by
  rw [packedFrame, List.length_append, MsgHeader.length_wire]

/-- The header is appended as it goes on the wire. -/
theorem packSend_eq (b : SessionBuffer) (uid : Int64) (cmd : Int32) (data : List UInt8) :
    packSend o b uid cmd data =
      (b.append (MsgHeader.new (UInt32.ofNat data.length) cmd.toUInt32 uid.toUInt64 0).wire).bind
        fun r => (r.2.append data).bind fun r' => some (0, r'.2) := by
  simp only [packSend, MsgHeader.bytes_toNetOrder]
  rfl

/-- With room for both pieces, the frame is put behind the live bytes. -/
theorem packSend_of_room (o : HostOrder) (uid : Int64) (cmd : Int32) {b : SessionBuffer}
    {data : List UInt8} (h₁ : b.offsets.Room b.mCapacity MsgHeader.size)
    (h₂ : (b.offsets.push b.mCapacity MsgHeader.size).Room b.mCapacity data.length)
    (hcap : b.bufSize + (MsgHeader.size + data.length) ≤ b.mCapacity) :
    ∃ b', packSend o b uid cmd data = some (0, b') ∧
      b'.live = b.live ++ packedFrame uid cmd data ∧
      b'.offsets = (b.offsets.push b.mCapacity MsgHeader.size).push b.mCapacity data.length ∧
      b'.mCapacity = b.mCapacity := by
  let header := MsgHeader.new (UInt32.ofNat data.length) cmd.toUInt32 uid.toUInt64 0
  have hw : header.wire.length = MsgHeader.size := header.length_wire
  have h₁' : b.offsets.Room b.mCapacity header.wire.length := by rwa [hw]
  obtain ⟨c, hc, hclive, hcoff, hccap⟩ := SessionBuffer.append_of_room h₁' (by omega)
  have hcsize := congrArg List.length hclive
  simp only [List.length_append, SessionBuffer.length_live, hw] at hcsize
  rw [hw] at hcoff
  have h₂' : c.offsets.Room c.mCapacity data.length := by rwa [hcoff, hccap]
  obtain ⟨d, hd, hdlive, hdoff, hdcap⟩ := SessionBuffer.append_of_room h₂' (by omega)
  refine ⟨d, ?_, ?_, ?_, hdcap.trans hccap⟩
  · rw [packSend_eq, hc, Option.bind_some, hd, Option.bind_some]
  · rw [hdlive, hclive, List.append_assoc, packedFrame]
  · rw [hdoff, hcoff, hccap]

/-- Without room for the first of two blocks, what is live after both has the wrong length. -/
theorem bufSize_appends_of_not_room {b c d : SessionBuffer} {r₁ r₂ : Bool} {xs ys : List UInt8}
    (h : ¬ b.offsets.Room b.mCapacity xs.length) (hpos : 0 < xs.length)
    (hcap : b.bufSize + (xs.length + ys.length) ≤ b.mCapacity) (hbig : 4 * xs.length ≤ b.mCapacity)
    (hc : b.append xs = some (r₁, c)) (hd : c.append ys = some (r₂, d)) :
    d.bufSize ≠ b.bufSize + (xs.length + ys.length) := by
  rcases SessionBuffer.append_of_not_room h with hn | ⟨hf, -, hfull⟩ |
    ⟨e, he, hhead, htail, hsize, hlong, hecap⟩
  · rw [hn] at hc
    cases hc
  · -- the first block is refused, and then so is the second
    cases hc.symm.trans hf
    have hfull : b.mTail = b.mCapacity := by
      rcases hfull with hfull | hfull
      · exact hfull
      · omega
    by_cases hdata : 0 < ys.length
    · cases hd.symm.trans (SessionBuffer.append_of_full hdata hfull)
      omega
    · have hfit : b.mTail + ys.length ≤ b.mCapacity := by omega
      cases hd.symm.trans (SessionBuffer.append_of_fits hfit)
      simp only [SessionBuffer.bufSize, SessionBuffer.store_mTail, SessionBuffer.store_mHead]
      omega
  · -- the first block drags along few bytes; the second is put behind them, or hangs
    cases hc.symm.trans he
    by_cases hfit : c.mTail + ys.length ≤ c.mCapacity
    · cases hd.symm.trans (SessionBuffer.append_of_fits hfit)
      simp only [SessionBuffer.bufSize, SessionBuffer.store_mTail, SessionBuffer.store_mHead] at *
      omega
    · have hn : c.append ys = none := by
        rw [SessionBuffer.append_eq_none_iff]
        have := b.tail_le
        omega
      rw [hn] at hd
      cases hd

/-- Without room for one of the pieces, what is live afterwards has the wrong length. -/
theorem bufSize_packSend_of_not_room {b b' : SessionBuffer} {uid : Int64} {cmd : Int32}
    {data : List UInt8} {r : Int}
    (h : ¬ (b.offsets.Room b.mCapacity MsgHeader.size ∧
      (b.offsets.push b.mCapacity MsgHeader.size).Room b.mCapacity data.length))
    (hcap : b.bufSize + (MsgHeader.size + data.length) ≤ b.mCapacity)
    (hbig : 4 * MsgHeader.size ≤ b.mCapacity)
    (hpack : packSend o b uid cmd data = some (r, b')) :
    b'.bufSize ≠ b.bufSize + (MsgHeader.size + data.length) := by
  let header := MsgHeader.new (UInt32.ofNat data.length) cmd.toUInt32 uid.toUInt64 0
  have hw : header.wire.length = MsgHeader.size := header.length_wire
  rw [packSend_eq, Option.bind_eq_some_iff] at hpack
  obtain ⟨⟨r₁, c⟩, hc, hpack⟩ := hpack
  obtain ⟨⟨r₂, d⟩, hd, hpack⟩ := Option.bind_eq_some_iff.mp hpack
  obtain ⟨-, rfl⟩ : 0 = r ∧ d = b' := by simpa using hpack
  by_cases h₁ : b.offsets.Room b.mCapacity MsgHeader.size
  · -- the header is in its place, the body is not
    have h₁' : b.offsets.Room b.mCapacity header.wire.length := by rwa [hw]
    obtain ⟨c', hc', hclive, hcoff, hccap⟩ := SessionBuffer.append_of_room h₁' (by omega)
    cases hc.symm.trans hc'
    have hcsize := congrArg List.length hclive
    simp only [List.length_append, SessionBuffer.length_live, hw] at hcsize
    rw [hw] at hcoff
    have h₂ : ¬ c.offsets.Room c.mCapacity data.length := by
      rw [hcoff, hccap]
      exact fun h₂ => h ⟨h₁, h₂⟩
    have hne := SessionBuffer.bufSize_append_of_not_room h₂ hd
    omega
  · have h₁' : ¬ b.offsets.Room b.mCapacity header.wire.length := by rwa [hw]
    rw [← hw] at hcap hbig ⊢
    exact bufSize_appends_of_not_room h₁' (by rw [hw]; decide) hcap hbig hc hd

/-! ### `sendData` -/

/-- A write that succeeds takes everything that is live. -/
theorem sendData_true {st : Outbound} (h : st.mBufferEvent = true) :
    ∃ b, sendData st true = { st with buffer := b, accepted := st.accepted ++ st.buffer.live } ∧
      b.live = [] ∧ b.offsets = ⟨st.buffer.mTail, st.buffer.mTail⟩ ∧
      b.mCapacity = st.buffer.mCapacity := by
  have hle := st.buffer.head_le
  by_cases h₀ : st.buffer.bufSize = 0
  · have hlive : st.buffer.live = [] := by
      rw [← List.length_eq_zero_iff, SessionBuffer.length_live, h₀]
    refine ⟨st.buffer, ?_, hlive, ?_, rfl⟩
    · rw [sendData, if_pos h₀.symm, hlive, List.append_nil]
    · simp only [SessionBuffer.offsets, SessionBuffer.bufSize] at h₀ ⊢
      rw [show st.buffer.mHead = st.buffer.mTail by omega]
  · have hlen : st.buffer.live.length = st.buffer.bufSize := st.buffer.length_live
    have hsend : send st.mBufferEvent true st.buffer.live = st.buffer.bufSize := by
      simp only [send, h, hlen, Bool.not_true, Bool.false_eq_true, if_false, if_true]
      exact if_neg (by omega)
    obtain ⟨b, hb, hlive, htail, hhead, hcap⟩ :=
      st.buffer.recycle_of_le (Nat.pos_of_ne_zero h₀) (Nat.le_refl _)
    refine ⟨b, ?_, ?_, ?_, hcap⟩
    · have hlive' : st.buffer.buffer 0 st.buffer.bufSize = st.buffer.live := rfl
      have htake : st.buffer.live.take st.buffer.bufSize = st.buffer.live := by
        rw [← hlen, List.take_length]
      simp only [sendData, if_neg (Ne.symm h₀), hlive', hsend, hb, htake]
    · rw [hlive, ← hlen, List.drop_length]
    · simp only [SessionBuffer.offsets, SessionBuffer.bufSize] at *
      rw [htail, hhead, show st.buffer.mHead + (st.buffer.mTail - st.buffer.mHead) =
        st.buffer.mTail by omega]

/-- A write that fails changes nothing. -/
theorem sendData_false (st : Outbound) : sendData st false = st := by
  have hsend : ∀ data, send st.mBufferEvent false data = 0 := by
    intro data
    simp only [send, Bool.false_eq_true, if_false, ite_self]
  simp only [sendData, hsend, SessionBuffer.recycle_zero, List.take_zero, List.append_nil, ite_self]

/-! ### Exactly when the frames are sent -/

/-- Everything packed was sent or is live, and the unsent frames keep fitting. -/
structure OutboundInv (st : Outbound) (as : List SendAct) : Prop where
  event : st.mBufferEvent = true
  cap : st.buffer.mCapacity = capacity
  sending : Sending st
  unsent : UnsentFit st.buffer.bufSize as

/-- The guard of a step: there is room for both pieces of the frame. -/
def FrameRoom (st : Outbound) : SendAct → Prop
  | .packSend _ _ data =>
    st.buffer.offsets.Room capacity MsgHeader.size ∧
      (st.buffer.offsets.push capacity MsgHeader.size).Room capacity data.length
  | .sendData _ => True

/-- The offsets after a step with room. -/
def SendAct.push (p : Offsets) : SendAct → Offsets
  | .packSend _ _ data => (p.push capacity MsgHeader.size).push capacity data.length
  | .sendData written  => if written then ⟨p.tail, p.tail⟩ else p

namespace OutboundInv

variable {st : Outbound} {a : SendAct} {as : List SendAct}

theorem start (mem : Memory UInt8) (h : UnsentFit 0 as) : OutboundInv (.start mem) as :=
  ⟨rfl, rfl, rfl, h⟩

/-- With room, the step keeps everything in its place. -/
theorem step_of_room (h : OutboundInv st (a :: as)) (hroom : FrameRoom st a) :
    ∃ st', sendStep o st a = some st' ∧ OutboundInv st' as ∧
      st'.buffer.offsets = a.push st.buffer.offsets := by
  have hsending : st.accepted ++ st.buffer.live = st.packed := h.sending
  cases a with
  | packSend uid cmd data =>
      have hun := h.unsent.2
      have hcap := hun.unsent_le
      rw [← h.cap] at hcap
      simp only [FrameRoom, ← h.cap] at hroom
      obtain ⟨b, hb, hlive, hoff, hbcap⟩ := packSend_of_room o uid cmd hroom.1 hroom.2 hcap
      refine ⟨{ st with buffer := b, packed := st.packed ++ packedFrame uid cmd data }, ?_, ?_, ?_⟩
      · simp only [sendStep, hb, Option.bind_eq_bind, Option.bind_some]
      · refine ⟨h.event, hbcap.trans h.cap, ?_, ?_⟩
        · simp only [Sending]
          rw [hlive, ← hsending, List.append_assoc]
        · have hlen := congrArg List.length hlive
          simp only [List.length_append, SessionBuffer.length_live, length_packedFrame] at hlen
          simp only [hlen]
          exact hun
      · simp only [SendAct.push, hoff, h.cap]
  | sendData written =>
      refine ⟨_, rfl, ?_⟩
      cases written with
      | false =>
          rw [sendData_false]
          exact ⟨⟨h.event, h.cap, h.sending, h.unsent.2⟩, rfl⟩
      | true =>
          obtain ⟨b, hb, hlive, hoff, hbcap⟩ := sendData_true h.event
          rw [hb]
          refine ⟨⟨h.event, hbcap.trans h.cap, ?_, ?_⟩, hoff⟩
          · simp only [Sending, hlive, List.append_nil]
            exact hsending
          · have hlen := congrArg List.length hlive
            rw [SessionBuffer.length_live] at hlen
            simp only [hlen]
            exact h.unsent.2

/-- Without room, what was taken and what is live do not add up to the frames packed. -/
theorem not_sending_of_not_room {st' : Outbound} (h : OutboundInv st (a :: as))
    (hroom : ¬ FrameRoom st a) (hstep : sendStep o st a = some st') : ¬ Sending st' := by
  cases a with
  | sendData written => exact absurd trivial hroom
  | packSend uid cmd data =>
      intro hsending'
      have hcap := h.unsent.2.unsent_le
      rw [← h.cap] at hcap
      simp only [FrameRoom, ← h.cap] at hroom
      simp only [sendStep, Option.bind_eq_bind, Option.bind_eq_some_iff] at hstep
      obtain ⟨⟨r, b⟩, hb, hst'⟩ := hstep
      cases hst'
      have hne := bufSize_packSend_of_not_room hroom hcap (by rw [h.cap]; decide) hb
      have hbefore := congrArg List.length h.sending
      have hafter := congrArg List.length hsending'
      simp only [List.length_append, SessionBuffer.length_live,
        length_packedFrame] at hbefore hafter
      omega

end OutboundInv

theorem framesFit_cons {p : Offsets} {a : SendAct} {as : List SendAct} {st : Outbound}
    (hp : p = st.buffer.offsets) :
    FramesFit p (a :: as) ↔ FrameRoom st a ∧ FramesFit (a.push p) as := by
  subst hp
  cases a with
  | packSend uid cmd data => exact and_assoc.symm
  | sendData written => exact (iff_of_eq (true_and _)).symm

/-- Whether there is room for every frame is settled by the lengths and the writes. -/
theorem frameRoom_iff_framesFit {st : Outbound} {as : List SendAct} (h : OutboundInv st as) :
    Guarded (sendStep o) FrameRoom st as ↔ FramesFit st.buffer.offsets as := by
  induction as generalizing st with
  | nil => exact Iff.rfl
  | cons a as ih =>
      rw [framesFit_cons rfl]
      refine and_congr_right fun hroom => ?_
      obtain ⟨st', hstep, hinv, hoff⟩ := h.step_of_room (o := o) hroom
      rw [← hoff, ← ih hinv]
      refine ⟨fun hall => hall st' hstep, fun hg u hu => ?_⟩
      cases hstep.symm.trans hu
      exact hg

theorem sending_iff_of_inv {st : Outbound} {as : List SendAct} (h : OutboundInv st as) :
    Throughout (sendStep o) Sending st as ↔ FramesFit st.buffer.offsets as := by
  rw [← frameRoom_iff_framesFit (o := o) h]
  refine throughout_iff_guarded (P := OutboundInv) (fun _ _ h => h.sending) ?_ ?_ h
  · intro st a as h hroom
    obtain ⟨st', hstep, hinv, -⟩ := h.step_of_room (o := o) hroom
    exact ⟨st', hstep, hinv⟩
  · intro st a as st' h hroom hstep
    exact h.not_sending_of_not_room hroom hstep

/-- **Exactly when the frames are sent.**  As long as the unsent frames fit into the buffer
together, what was taken and what is live are the frames packed, throughout, exactly when every
frame has room. -/
theorem sending_iff_framesFit (o : HostOrder) (mem : Memory UInt8) (as : List SendAct)
    (hunsent : UnsentFit 0 as) :
    Throughout (sendStep o) Sending (.start mem) as ↔ FramesFit ⟨0, 0⟩ as :=
  sending_iff_of_inv (OutboundInv.start mem hunsent)

/-! ### Replies that are sent at once -/

/-- Every body is packed and sent at once. -/
def promptly (uid : Int64) (cmd : Int32) (bodies : List (List UInt8)) : List SendAct :=
  bodies.flatMap fun data => [.packSend uid cmd data, .sendData true]

/-- How long the frames of these bodies are together. -/
def framesLength (bodies : List (List UInt8)) : Nat :=
  (bodies.map fun data => MsgHeader.size + data.length).sum

theorem framesLength_replicate (k : Nat) (data : List UInt8) :
    framesLength (List.replicate k data) = k * (MsgHeader.size + data.length) := by
  rw [framesLength, List.map_replicate, List.sum_replicate_nat]

/-- Sending at once moves both offsets on by the frames, and nothing moves them back. -/
theorem framesFit_promptly {uid : Int64} {cmd : Int32} {bodies : List (List UInt8)} {n : Nat}
    (h : n + framesLength bodies ≤ capacity) (as : List SendAct) :
    FramesFit ⟨n, n⟩ (promptly uid cmd bodies ++ as) ↔
      FramesFit ⟨n + framesLength bodies, n + framesLength bodies⟩ as := by
  induction bodies generalizing n with
  | nil => exact Iff.rfl
  | cons data bodies ih =>
      have hsum : framesLength (data :: bodies) =
          MsgHeader.size + data.length + framesLength bodies := List.sum_cons
      rw [hsum] at h ⊢
      have h₁ : n + MsgHeader.size ≤ capacity := by omega
      have h₂ : n + MsgHeader.size + data.length ≤ capacity := by omega
      have hcons : promptly uid cmd (data :: bodies) ++ as =
          .packSend uid cmd data :: .sendData true :: (promptly uid cmd bodies ++ as) := rfl
      rw [hcons]
      simp only [FramesFit, Offsets.push, Offsets.Room, h₁, h₂, if_true, true_or, true_and]
      rw [ih (by omega)]
      simp only [Nat.add_assoc]

theorem unsentFit_promptly {uid : Int64} {cmd : Int32} {bodies : List (List UInt8)}
    (h : framesLength bodies ≤ capacity) {as : List SendAct} (has : UnsentFit 0 as) :
    UnsentFit 0 (promptly uid cmd bodies ++ as) := by
  induction bodies with
  | nil => exact has
  | cons data bodies ih =>
      have hsum : framesLength (data :: bodies) =
          MsgHeader.size + data.length + framesLength bodies := List.sum_cons
      rw [hsum] at h
      exact ⟨Nat.zero_le _, by omega, ih (by omega)⟩

/-- Replies of thirty-two bytes, sent at once, until the tail stands at the end of the block. -/
def fillingReplies : List SendAct :=
  promptly 0 2 (List.replicate 4096 (List.replicate 12 0))

theorem sending_fillingReplies :
    Throughout (sendStep .little) Sending (.start fun _ => 0) fillingReplies := by
  have hlen := framesLength_replicate 4096 (List.replicate 12 0)
  rw [List.length_replicate] at hlen
  have hun : UnsentFit 0 (fillingReplies ++ []) := unsentFit_promptly (by rw [hlen]; decide)
    (Nat.zero_le _)
  have hfit : FramesFit ⟨0, 0⟩ (fillingReplies ++ []) :=
    (framesFit_promptly (by rw [hlen]; decide) []).mpr trivial
  rw [List.append_nil] at hun hfit
  exact (sending_iff_framesFit .little (fun _ => 0) fillingReplies hun).mpr hfit

/-- The next reply is lost, although nothing is unsent. -/
theorem not_sending_next_reply :
    UnsentFit 0 (fillingReplies ++ [.packSend 0 2 (List.replicate 12 0)]) ∧
      ¬ Throughout (sendStep .little) Sending (.start fun _ => 0)
        (fillingReplies ++ [.packSend 0 2 (List.replicate 12 0)]) := by
  have hlen := framesLength_replicate 4096 (List.replicate 12 0)
  rw [List.length_replicate] at hlen
  have hun : UnsentFit 0 (fillingReplies ++ [.packSend 0 2 (List.replicate 12 0)]) :=
    unsentFit_promptly (by rw [hlen]; decide)
      ⟨Nat.zero_le _, (by decide : 0 + (MsgHeader.size + 12) ≤ capacity)⟩
  refine ⟨hun, fun h => ?_⟩
  have hfit := (sending_iff_of_inv (OutboundInv.start (fun _ => 0) hun)).mp h
  have hnext : FramesFit ⟨capacity, capacity⟩ [.packSend 0 2 (List.replicate 12 0)] := by
    have := (framesFit_promptly (by rw [hlen]; decide) _).mp hfit
    rwa [hlen] at this
  exact absurd hnext.1 (by decide)

end Holdem
