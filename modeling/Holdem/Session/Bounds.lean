import Holdem.Session.Queue
import Mathlib.Data.UInt

/-!
# Session — Bounds

`SessionBuffer` as the machine sees it: offsets and sizes are `size_t`, whose arithmetic wraps, no
field keeps the offsets in order, and every pass of `append` tells which `memcpy` or `memmove` it
performs.  Nothing of `SessionBuffer` is assumed here, it is proved:

* `run_ofBuffer`: from a new buffer, any sequence of calls runs as it does on a `SessionBuffer`, so
  that no offset ever wraps;
* `guarded_safe`: along any sequence of calls, at every pass of the loop of `append` and after every
  call, the offsets stay in order and inside the block, no copy touches a byte outside of it, and a
  call that returns false has changed nothing.

A compaction leaves the tail short of the end, so that the loop, once it has moved bytes, never
comes to its refusal.
-/

namespace Holdem
open Support

/-- The bytes handed to `append`, of a length that `size_t` can tell. -/
structure Block where
  bytes : List UInt8
  length_lt : bytes.length < UInt64.size

/-- `size` of a block. -/
def Block.size (data : Block) : UInt64 := .ofNat data.bytes.length

/-- A copy performed on the block of a buffer. -/
inductive MemOp where
  | memcpy (dst : UInt64) (data : Block)
  | memmove (dst src n : UInt64)

namespace MemOp

/-- The block after the copy. -/
def perform (mem : Memory UInt8) : MemOp → Memory UInt8
  | .memcpy dst data    => write mem dst.toNat data.bytes
  | .memmove dst src n => move mem dst.toNat src.toNat n.toNat

/-- The offsets the copy reads or writes. -/
def Touches : MemOp → Nat → Prop
  | .memcpy dst data, i    => dst.toNat ≤ i ∧ i < dst.toNat + data.bytes.length
  | .memmove dst src n, i =>
    dst.toNat ≤ i ∧ i < dst.toNat + n.toNat ∨ src.toNat ≤ i ∧ i < src.toNat + n.toNat

end MemOp

/-- A call on a buffer, with the sizes the machine has. -/
inductive RawCall where
  | append (data : Block)
  | recycle (len : UInt64)
  | clear

/-- The call with its sizes as numbers. -/
def RawCall.toCall : RawCall → BufferCall (List UInt8)
  | .append data => .append data.bytes
  | .recycle len => .recycle len.toNat
  | .clear       => .clear

/-- `SessionBuffer`, its fields as the machine has them. -/
structure RawBuffer where
  mHead : UInt64
  mTail : UInt64
  mCapacity : UInt64
  mBuffer : Memory UInt8

namespace RawBuffer

/-- `SessionBuffer::clear`. -/
def clear (b : RawBuffer) : RawBuffer := { b with mHead := 0, mTail := 0 }

/-- `SessionBuffer::SessionBuffer`, over whatever bytes `malloc` returns. -/
def new (mem : Memory UInt8) : RawBuffer := clear ⟨0, 0, 128 * 1024, mem⟩

/-- The copy one pass of the loop of `append` performs. -/
def passOp (data : Block) (b : RawBuffer) : Option MemOp :=
  let remain := b.mCapacity - b.mTail
  if remain ≥ data.size then some (.memcpy b.mTail data)
  else if 0 = remain then none
  else some (.memmove 0 b.mHead remain)

/-- The block after the copy of one pass. -/
def performed (data : Block) (b : RawBuffer) : Memory UInt8 :=
  (passOp data b).elim b.mBuffer (MemOp.perform b.mBuffer)

/-- One pass of the loop of `append`. -/
def appendPass (data : Block) (b : RawBuffer) : Pass RawBuffer (Bool × RawBuffer) :=
  let remain := b.mCapacity - b.mTail
  if remain ≥ data.size then
    .leave (true, { b with mTail := b.mTail + data.size, mBuffer := performed data b })
  else if 0 = remain then .leave (false, b)
  else .again { b with mHead := 0, mTail := remain, mBuffer := performed data b }

/-- `SessionBuffer::append`, with `none` for a loop that never leaves. -/
def append (b : RawBuffer) (data : Block) : Option (Bool × RawBuffer) :=
  if data.size > b.mCapacity then some (false, b) else loop (appendPass data) 2 b

/-- `SessionBuffer::recycle`. -/
def recycle (b : RawBuffer) (len : UInt64) : Bool × RawBuffer :=
  if len = 0 then (false, b)
  else
    let diff := b.mTail - b.mHead
    if diff < len then (false, b) else (true, { b with mHead := b.mHead + len })

/-- A call, with what it returns; `clear` returns nothing. -/
def call (b : RawBuffer) : RawCall → Option (Bool × RawBuffer)
  | .append data => b.append data
  | .recycle len => some (b.recycle len)
  | .clear       => some (true, b.clear)

/-- The buffer after a call that returns. -/
def step (b : RawBuffer) (c : RawCall) : Option RawBuffer := (b.call c).map Prod.snd

/-- The offsets are in order and inside the block that was allocated. -/
structure Ordered (b : RawBuffer) : Prop where
  head_le : b.mHead ≤ b.mTail
  tail_le : b.mTail ≤ b.mCapacity
  capacity_eq : b.mCapacity = 128 * 1024

/-- What holds of one call: at the head of every pass of its loop the offsets are in order and the
copy of the pass stays below `mCapacity`; where it returns they are in order again, and nothing has
changed if it returns false; where it gives no result, its loop never leaves. -/
structure Safe (b : RawBuffer) (c : RawCall) : Prop where
  passes : ∀ data, c = .append data → data.size ≤ b.mCapacity → ∀ s, Reaches (appendPass data) b s →
    s.Ordered ∧ ∀ op, passOp data s = some op → ∀ i, op.Touches i → i < s.mCapacity.toNat
  returns : ∀ r b', b.call c = some (r, b') → b'.Ordered ∧ (r = false → b' = b)
  hangs : ∀ data, c = .append data → b.append data = none → Diverges (appendPass data) b

/-! ### The buffer it stands for -/

/-- A `SessionBuffer`, its offsets as the machine has them. -/
def ofBuffer (b : SessionBuffer) : RawBuffer where
  mHead := .ofNat b.mHead
  mTail := .ofNat b.mTail
  mCapacity := .ofNat b.mCapacity
  mBuffer := b.mBuffer

theorem toNat_size (data : Block) : data.size.toNat = data.bytes.length :=
  UInt64.toNat_ofNat_of_lt' data.length_lt

variable {b : SessionBuffer}

theorem capacity_lt : capacity < UInt64.size := by decide

theorem toNat_mCapacity (h : b.mCapacity = capacity) :
    (ofBuffer b).mCapacity.toNat = b.mCapacity :=
  UInt64.toNat_ofNat_of_lt' (h ▸ capacity_lt)

theorem toNat_mTail (h : b.mCapacity = capacity) : (ofBuffer b).mTail.toNat = b.mTail :=
  UInt64.toNat_ofNat_of_lt' (Nat.lt_of_le_of_lt (h ▸ b.tail_le) capacity_lt)

theorem toNat_mHead (h : b.mCapacity = capacity) : (ofBuffer b).mHead.toNat = b.mHead :=
  UInt64.toNat_ofNat_of_lt'
    (Nat.lt_of_le_of_lt (Nat.le_trans b.head_le (h ▸ b.tail_le)) capacity_lt)

/-- The offsets of a `SessionBuffer` are in order. -/
theorem ordered_ofBuffer (h : b.mCapacity = capacity) : (ofBuffer b).Ordered where
  head_le := by
    rw [UInt64.le_iff_toNat_le, toNat_mHead h, toNat_mTail h]
    exact b.head_le
  tail_le := by
    rw [UInt64.le_iff_toNat_le, toNat_mTail h, toNat_mCapacity h]
    exact b.tail_le
  capacity_eq := by
    simp only [ofBuffer, h]
    rfl

/-- The free space does not wrap. -/
theorem toNat_remain (h : b.mCapacity = capacity) :
    ((ofBuffer b).mCapacity - (ofBuffer b).mTail).toNat = b.mCapacity - b.mTail := by
  rw [UInt64.toNat_sub_of_le _ _ (ordered_ofBuffer h).tail_le, toNat_mCapacity h, toNat_mTail h]

theorem remain_eq (h : b.mCapacity = capacity) :
    (ofBuffer b).mCapacity - (ofBuffer b).mTail = .ofNat (b.mCapacity - b.mTail) := by
  rw [← toNat_remain h, UInt64.ofNat_toNat]

theorem remain_ge_iff (h : b.mCapacity = capacity) (data : Block) :
    (ofBuffer b).mCapacity - (ofBuffer b).mTail ≥ data.size ↔
      data.bytes.length ≤ b.mCapacity - b.mTail := by
  rw [ge_iff_le, UInt64.le_iff_toNat_le, toNat_size, toNat_remain h]

theorem remain_eq_zero_iff (h : b.mCapacity = capacity) :
    0 = (ofBuffer b).mCapacity - (ofBuffer b).mTail ↔ b.mCapacity - b.mTail = 0 := by
  rw [eq_comm, ← UInt64.toNat_inj, toNat_remain h]
  rfl

/-! ### One pass -/

theorem passOp_of_fits {data : Block} (h : b.mCapacity = capacity)
    (hfit : data.bytes.length ≤ b.mCapacity - b.mTail) :
    passOp data (ofBuffer b) = some (.memcpy (ofBuffer b).mTail data) :=
  if_pos ((remain_ge_iff h data).mpr hfit)

theorem passOp_of_full {data : Block} (h : b.mCapacity = capacity)
    (hfit : ¬ data.bytes.length ≤ b.mCapacity - b.mTail) (hfull : b.mCapacity - b.mTail = 0) :
    passOp data (ofBuffer b) = none := by
  rw [passOp, if_neg (mt (remain_ge_iff h data).mp hfit),
    if_pos ((remain_eq_zero_iff h).mpr hfull)]

theorem passOp_of_compact {data : Block} (h : b.mCapacity = capacity)
    (hfit : ¬ data.bytes.length ≤ b.mCapacity - b.mTail) (hfull : ¬ b.mCapacity - b.mTail = 0) :
    passOp data (ofBuffer b) =
      some (.memmove 0 (ofBuffer b).mHead ((ofBuffer b).mCapacity - (ofBuffer b).mTail)) := by
  rw [passOp, if_neg (mt (remain_ge_iff h data).mp hfit),
    if_neg (mt (remain_eq_zero_iff h).mp hfull)]

/-- A pass is that of the `SessionBuffer`. -/
theorem appendPass_ofBuffer (h : b.mCapacity = capacity) (data : Block) :
    appendPass data (ofBuffer b) =
      (b.appendPass data.bytes).map ofBuffer (Prod.map id ofBuffer) := by
  rw [appendPass, SessionBuffer.appendPass]
  by_cases hfit : data.bytes.length ≤ b.mCapacity - b.mTail
  · have hmem : performed data (ofBuffer b) = write b.mBuffer b.mTail data.bytes := by
      rw [performed, passOp_of_fits h hfit, ← toNat_mTail h]
      rfl
    have htail : (ofBuffer b).mTail + data.size = .ofNat (b.mTail + data.bytes.length) := by
      rw [UInt64.ofNat_add]
      rfl
    rw [if_pos ((remain_ge_iff h data).mpr hfit), dif_pos hfit, hmem, htail]
    rfl
  · rw [if_neg (mt (remain_ge_iff h data).mp hfit), dif_neg hfit]
    by_cases hfull : b.mCapacity - b.mTail = 0
    · rw [if_pos ((remain_eq_zero_iff h).mpr hfull), if_pos hfull]
      rfl
    · have hmem : performed data (ofBuffer b) =
          move b.mBuffer 0 b.mHead (b.mCapacity - b.mTail) := by
        rw [performed, passOp_of_compact h hfit hfull, ← toNat_mHead h, ← toNat_remain h]
        rfl
      rw [if_neg (mt (remain_eq_zero_iff h).mp hfull), if_neg hfull, hmem, remain_eq h]
      rfl

/-- No copy of a pass touches a byte outside the block. -/
theorem touches_lt (h : b.mCapacity = capacity) {data : Block} {op : MemOp} {i : Nat}
    (hop : passOp data (ofBuffer b) = some op) (hi : op.Touches i) :
    i < (ofBuffer b).mCapacity.toNat := by
  have hhead := b.head_le
  have htail := b.tail_le
  rw [toNat_mCapacity h]
  by_cases hfit : data.bytes.length ≤ b.mCapacity - b.mTail
  · rw [passOp_of_fits h hfit] at hop
    cases hop
    simp only [MemOp.Touches, toNat_mTail h] at hi
    omega
  · by_cases hfull : b.mCapacity - b.mTail = 0
    · rw [passOp_of_full h hfit hfull] at hop
      cases hop
    · rw [passOp_of_compact h hfit hfull] at hop
      cases hop
      -- the move starts no later than the tail, and moves what lies behind the tail
      simp only [MemOp.Touches, toNat_mHead h, toNat_remain h, UInt64.toNat_zero] at hi
      omega

theorem appendPass_mCapacity {s s' : SessionBuffer} {data : List UInt8}
    (hs : s.mCapacity = capacity) (hp : s.appendPass data = .again s') :
    s'.mCapacity = capacity := by
  rw [SessionBuffer.appendPass] at hp
  split at hp
  · cases hp
  · split at hp
    · cases hp
    · cases hp
      exact hs

/-- Every pass of the loop begins at the offsets of some `SessionBuffer`. -/
theorem exists_of_reaches (h : b.mCapacity = capacity) {data : Block} {s : RawBuffer}
    (hs : Reaches (appendPass data) (ofBuffer b) s) :
    ∃ c : SessionBuffer, c.mCapacity = capacity ∧ s = ofBuffer c := by
  refine hs.invariant (P := fun s => ∃ c : SessionBuffer, c.mCapacity = capacity ∧
    s = ofBuffer c) ?_ ⟨b, h, rfl⟩
  rintro s s' ⟨c, hc, rfl⟩ hp
  rw [appendPass_ofBuffer hc] at hp
  cases hp' : c.appendPass data.bytes with
  | leave r =>
      rw [hp'] at hp
      cases hp
  | again c' =>
      rw [hp'] at hp
      cases hp
      exact ⟨c', appendPass_mCapacity hc hp', rfl⟩

/-! ### One call -/

theorem append_ofBuffer (h : b.mCapacity = capacity) (data : Block) :
    (ofBuffer b).append data = (b.append data.bytes).map (Prod.map id ofBuffer) := by
  have hgt : data.size > (ofBuffer b).mCapacity ↔ data.bytes.length > b.mCapacity := by
    rw [gt_iff_lt, UInt64.lt_iff_toNat_lt, toNat_size, toNat_mCapacity h]
  rw [append, SessionBuffer.append]
  by_cases hcap : data.bytes.length > b.mCapacity
  · rw [if_pos (hgt.mpr hcap), if_pos hcap]
    rfl
  · rw [if_neg (mt hgt.mp hcap), if_neg hcap]
    exact loop_map (P := fun c => c.mCapacity = capacity)
      (fun c hc => appendPass_ofBuffer hc data) (fun _ _ => appendPass_mCapacity) 2 h

theorem recycle_ofBuffer (h : b.mCapacity = capacity) (len : UInt64) :
    (ofBuffer b).recycle len = Prod.map id ofBuffer (b.recycle len.toNat) := by
  have hdiff : (ofBuffer b).mTail - (ofBuffer b).mHead < len ↔ b.mTail - b.mHead < len.toNat := by
    rw [UInt64.lt_iff_toNat_lt, UInt64.toNat_sub_of_le _ _ (ordered_ofBuffer h).head_le,
      toNat_mTail h, toNat_mHead h]
  have hzero : len = 0 ↔ len.toNat = 0 := by
    rw [← UInt64.toNat_inj]
    rfl
  rw [recycle, SessionBuffer.recycle]
  by_cases h₀ : len.toNat = 0
  · rw [if_pos (hzero.mpr h₀), if_pos h₀]
    rfl
  · rw [if_neg (mt hzero.mp h₀), if_neg h₀]
    by_cases hlt : b.mTail - b.mHead < len.toNat
    · rw [dif_pos hlt]
      exact if_pos (hdiff.mpr hlt)
    · have hhead : (ofBuffer b).mHead + len = .ofNat (b.mHead + len.toNat) := by
        rw [UInt64.ofNat_add, UInt64.ofNat_toNat]
        rfl
      rw [dif_neg hlt]
      refine (if_neg (mt hdiff.mp hlt)).trans ?_
      rw [hhead]
      rfl

/-- A call does what it does on the `SessionBuffer`. -/
theorem call_ofBuffer (h : b.mCapacity = capacity) (c : RawCall) :
    (ofBuffer b).call c = (b.call c.toCall).map (Prod.map id ofBuffer) := by
  cases c with
  | append data => exact append_ofBuffer h data
  | recycle len => exact congrArg some (recycle_ofBuffer h len)
  | clear => rfl

theorem step_ofBuffer (h : b.mCapacity = capacity) (c : RawCall) :
    (ofBuffer b).step c = (b.step c.toCall).map ofBuffer := by
  rw [step, call_ofBuffer h, SessionBuffer.step, Option.map_map, Option.map_map]
  rfl

/-- A call that returns false has changed nothing. -/
theorem eq_of_call_false {b' : SessionBuffer} {c : BufferCall (List UInt8)}
    (h : b.call c = some (false, b')) : b' = b := by
  cases c with
  | append data =>
      rcases b.append_cases data with ⟨_, h'⟩ | ⟨-, h'⟩ | ⟨-, _, h'⟩ | ⟨-, h'⟩
      · cases h.symm.trans h'
      · cases h.symm.trans h'
        rfl
      · cases h.symm.trans h'
      · cases h.symm.trans h'
  | recycle len =>
      have hr : b.recycle len = (false, b') := Option.some.inj h
      by_cases hno : len = 0 ∨ b.bufSize < len
      · cases hr.symm.trans (b.recycle_of_not_le hno)
        rfl
      · obtain ⟨h₀, hle⟩ := not_or.mp hno
        obtain ⟨c, hc, -⟩ := b.recycle_of_le (Nat.pos_of_ne_zero h₀) (Nat.not_lt.mp hle)
        cases hr.symm.trans hc
  | clear => cases h

theorem call_mCapacity {b' : SessionBuffer} {c : BufferCall (List UInt8)} {r : Bool}
    (h : b.call c = some (r, b')) : b'.mCapacity = b.mCapacity :=
  SessionBuffer.step_mCapacity (Option.map_eq_some_iff.mpr ⟨_, h, rfl⟩)

/-- One call is safe at the offsets of a `SessionBuffer`. -/
theorem safe_ofBuffer (h : b.mCapacity = capacity) (c : RawCall) : (ofBuffer b).Safe c where
  passes := by
    intro data _ _ s hs
    obtain ⟨c, hc, rfl⟩ := exists_of_reaches h hs
    exact ⟨ordered_ofBuffer hc, fun _ hop _ hi => touches_lt hc hop hi⟩
  returns := by
    intro r b' hcall
    rw [call_ofBuffer h, Option.map_eq_some_iff] at hcall
    obtain ⟨⟨r', c'⟩, hc', hr⟩ := hcall
    cases hr
    refine ⟨ordered_ofBuffer ((call_mCapacity hc').trans h), ?_⟩
    rintro rfl
    rw [eq_of_call_false hc']
  hangs := by
    intro data _ hnone
    rw [append_ofBuffer h, Option.map_eq_none_iff] at hnone
    exact (SessionBuffer.diverges_of_append_eq_none hnone).map
      (P := fun c => c.mCapacity = capacity) (fun c hc => appendPass_ofBuffer hc data)
      (fun _ _ => appendPass_mCapacity) h

/-! ### Every sequence of calls -/

variable (mem : Memory UInt8) (calls : List RawCall)

theorem new_eq : new mem = ofBuffer (.new mem) := rfl

/-- **The offsets never wrap.**  From a new buffer, any sequence of calls runs as it does on a
`SessionBuffer`. -/
theorem run_ofBuffer :
    run step (new mem) calls =
      (run SessionBuffer.step (.new mem) (calls.map RawCall.toCall)).map ofBuffer := by
  have hnew : (SessionBuffer.new mem).mCapacity = capacity := rfl
  refine run_map (f := ofBuffer) (P := fun b => b.mCapacity = capacity) ?_ ?_ calls hnew
  · intro b c h
    exact step_ofBuffer h c
  · intro b c b' h hstep
    exact (SessionBuffer.step_mCapacity hstep).trans h

/-- **Bounds and failure atomicity.**  Every call of every sequence of calls on a new buffer is
safe. -/
theorem guarded_safe : Guarded step Safe (new mem) calls := by
  refine guarded_of_invariant (P := fun s => ∃ b : SessionBuffer, b.mCapacity = capacity ∧
    s = ofBuffer b) ?_ ?_ calls ⟨.new mem, rfl, new_eq mem⟩
  · rintro s c ⟨b, h, rfl⟩
    exact safe_ofBuffer h c
  · rintro s c s' ⟨b, h, rfl⟩ hstep
    rw [step_ofBuffer h, Option.map_eq_some_iff] at hstep
    obtain ⟨b', hb', rfl⟩ := hstep
    exact ⟨b', (SessionBuffer.step_mCapacity hb').trans h, rfl⟩

end RawBuffer

end Holdem
