import Holdem.Support.Loop
import Holdem.Support.Memory

/-!
# Session — Buffer

`SessionBuffer`, the fixed block of 128 KiB behind each direction of a connection.  The live bytes
are those from `mHead` up to `mTail`; `append` stores behind `mTail`, `recycle` moves `mHead`
forward.  Nothing but `clear` and the compaction inside `append` ever moves an offset back.

`append`'s loop compacts when the block does not fit behind `mTail`: it moves `mCapacity - mTail`
bytes, the free space, from `mHead` to the front (`compact`).  Which of its exits a block takes is
settled by the offsets alone:

* `append_of_fits`: the block fits behind `mTail`;
* `append_of_full`: `mTail` stands at the end, and every block is refused;
* `append_of_compact`: one compaction makes room for it;
* `append_eq_none_iff`: two compactions bring the offsets back to where they were, and the loop
  goes round for ever.
-/

namespace Holdem
open Support

/-- `SessionBuffer`.  The offsets stay ordered and inside the block. -/
structure SessionBuffer where
  mHead : Nat
  mTail : Nat
  mCapacity : Nat
  mBuffer : Memory UInt8
  head_le : mHead ≤ mTail
  tail_le : mTail ≤ mCapacity

/-- `mCapacity` of a new buffer. -/
def capacity : Nat := 128 * 1024

namespace SessionBuffer

/-- `SessionBuffer::SessionBuffer`, over whatever bytes `malloc` returns. -/
def new (mem : Memory UInt8) : SessionBuffer where
  mHead := 0
  mTail := 0
  mCapacity := capacity
  mBuffer := mem
  head_le := Nat.le_refl 0
  tail_le := Nat.zero_le _

/-- `SessionBuffer::clear`. -/
def clear (b : SessionBuffer) : SessionBuffer :=
  { b with mHead := 0, mTail := 0, head_le := Nat.le_refl 0, tail_le := Nat.zero_le _ }

/-- `SessionBuffer::bufSize`. -/
def bufSize (b : SessionBuffer) : Nat := b.mTail - b.mHead

/-- The `n` bytes behind the pointer `SessionBuffer::buffer(offset)` returns. -/
def buffer (b : SessionBuffer) (offset n : Nat) : List UInt8 :=
  slice b.mBuffer (b.mHead + offset) n

/-- The live bytes, `mBuffer[mHead .. mTail)`. -/
def live (b : SessionBuffer) : List UInt8 := b.buffer 0 b.bufSize

/-- The `memcpy` of `append`, and the tail behind it. -/
def store (b : SessionBuffer) (data : List UInt8) (h : b.mTail + data.length ≤ b.mCapacity) :
    SessionBuffer where
  mHead := b.mHead
  mTail := b.mTail + data.length
  mCapacity := b.mCapacity
  mBuffer := write b.mBuffer b.mTail data
  head_le := Nat.le_trans b.head_le (Nat.le_add_right _ _)
  tail_le := h

/-- The `memmove` of `append`, and the offsets it is followed by. -/
def compact (b : SessionBuffer) : SessionBuffer where
  mHead := 0
  mTail := b.mCapacity - b.mTail
  mCapacity := b.mCapacity
  mBuffer := move b.mBuffer 0 b.mHead (b.mCapacity - b.mTail)
  head_le := Nat.zero_le _
  tail_le := Nat.sub_le _ _

/-- One pass of the loop of `append`. -/
def appendPass (data : List UInt8) (b : SessionBuffer) :
    Pass SessionBuffer (Bool × SessionBuffer) :=
  if h : data.length ≤ b.mCapacity - b.mTail then
    .leave (true, b.store data (by have := b.tail_le; omega))
  else if b.mCapacity - b.mTail = 0 then
    .leave (false, b)
  else
    .again b.compact

/-- `SessionBuffer::append`, with `none` for a loop that never leaves: after two passes the
offsets repeat (`append_eq_none_iff`). -/
def append (b : SessionBuffer) (data : List UInt8) : Option (Bool × SessionBuffer) :=
  if data.length > b.mCapacity then some (false, b) else loop (appendPass data) 2 b

/-- `SessionBuffer::recycle`. -/
def recycle (b : SessionBuffer) (len : Nat) : Bool × SessionBuffer :=
  if len = 0 then (false, b)
  else if h : b.mTail - b.mHead < len then (false, b)
  else (true, { b with
    mHead := b.mHead + len
    head_le := by have := b.head_le; omega })

/-! ### What the small operations do -/

@[simp] theorem live_new (mem : Memory UInt8) : (new mem).live = [] := rfl

@[simp] theorem live_clear (b : SessionBuffer) : b.clear.live = [] := rfl

@[simp] theorem length_live (b : SessionBuffer) : b.live.length = b.bufSize := length_slice _ _ _

@[simp] theorem store_mTail (b : SessionBuffer) (data : List UInt8)
    (h : b.mTail + data.length ≤ b.mCapacity) :
    (b.store data h).mTail = b.mTail + data.length := rfl

@[simp] theorem store_mHead (b : SessionBuffer) (data : List UInt8)
    (h : b.mTail + data.length ≤ b.mCapacity) : (b.store data h).mHead = b.mHead := rfl

@[simp] theorem store_mCapacity (b : SessionBuffer) (data : List UInt8)
    (h : b.mTail + data.length ≤ b.mCapacity) : (b.store data h).mCapacity = b.mCapacity := rfl

@[simp] theorem compact_mTail (b : SessionBuffer) : b.compact.mTail = b.mCapacity - b.mTail := rfl

@[simp] theorem compact_mHead (b : SessionBuffer) : b.compact.mHead = 0 := rfl

@[simp] theorem compact_mCapacity (b : SessionBuffer) : b.compact.mCapacity = b.mCapacity := rfl

/-- The `memcpy` puts the block behind the live bytes. -/
theorem live_store (b : SessionBuffer) (data : List UInt8)
    (h : b.mTail + data.length ≤ b.mCapacity) : (b.store data h).live = b.live ++ data := by
  have hb := b.head_le
  simp only [live, buffer, bufSize, store, Nat.add_zero]
  rw [show b.mTail + data.length - b.mHead = b.mTail - b.mHead + data.length by omega,
    slice_write_append _ _ (by omega)]

/-- The `memmove` keeps `mCapacity - mTail` bytes from the head on, whatever is live. -/
theorem live_compact (b : SessionBuffer) :
    b.compact.live = slice b.mBuffer b.mHead (b.mCapacity - b.mTail) := by
  simp only [live, buffer, bufSize, compact, Nat.sub_zero, Nat.add_zero]
  exact slice_move_self _ _ _ _

/-- The live bytes survive the `memmove` when the free space is as long as they are. -/
theorem live_compact_of_eq (b : SessionBuffer) (h : b.mCapacity - b.mTail = b.bufSize) :
    b.compact.live = b.live := by
  rw [live_compact, h]
  rfl

theorem recycle_of_le (b : SessionBuffer) {len : Nat} (h₀ : 0 < len) (h : len ≤ b.bufSize) :
    ∃ b', b.recycle len = (true, b') ∧ b'.live = b.live.drop len ∧ b'.mTail = b.mTail ∧
      b'.mHead = b.mHead + len ∧ b'.mCapacity = b.mCapacity := by
  have h' : ¬ b.mTail - b.mHead < len := Nat.not_lt.mpr h
  simp only [recycle, Nat.ne_of_gt h₀, if_false, dif_neg h']
  refine ⟨_, rfl, ?_, rfl, rfl, rfl⟩
  have hd := drop_slice b.mBuffer b.mHead h
  simp only [live, buffer, bufSize, Nat.add_zero] at hd ⊢
  rw [hd, show b.mTail - (b.mHead + len) = b.mTail - b.mHead - len by omega]

theorem recycle_of_not_le (b : SessionBuffer) {len : Nat} (h : len = 0 ∨ b.bufSize < len) :
    b.recycle len = (false, b) := by
  unfold recycle
  by_cases h₀ : len = 0
  · rw [if_pos h₀]
  · rw [if_neg h₀]
    exact dif_pos (h.resolve_left h₀)

theorem recycle_zero (b : SessionBuffer) : b.recycle 0 = (false, b) := rfl

/-! ### The exits of `append` -/

theorem appendPass_fits {b : SessionBuffer} {data : List UInt8}
    (h : b.mTail + data.length ≤ b.mCapacity) :
    appendPass data b = .leave (true, b.store data h) := by
  have h' : data.length ≤ b.mCapacity - b.mTail := by omega
  simp only [appendPass, dif_pos h']

theorem appendPass_again {b : SessionBuffer} {data : List UInt8} (h₁ : b.mTail < b.mCapacity)
    (h₂ : b.mCapacity < b.mTail + data.length) : appendPass data b = .again b.compact := by
  have h' : ¬ data.length ≤ b.mCapacity - b.mTail := by omega
  have h'' : ¬ b.mCapacity - b.mTail = 0 := by omega
  simp only [appendPass, dif_neg h', if_neg h'']

/-- A block that fits behind the tail is stored there. -/
theorem append_of_fits {b : SessionBuffer} {data : List UInt8}
    (h : b.mTail + data.length ≤ b.mCapacity) : b.append data = some (true, b.store data h) := by
  rw [append, if_neg (by omega), loop_leave (appendPass_fits h)]

/-- With the tail at the end of the block, every block is refused. -/
theorem append_of_full {b : SessionBuffer} {data : List UInt8} (h₀ : 0 < data.length)
    (h : b.mTail = b.mCapacity) : b.append data = some (false, b) := by
  have h' : ¬ data.length ≤ b.mCapacity - b.mTail := by omega
  have hp : appendPass data b = .leave (false, b) := by
    simp only [appendPass, dif_neg h', if_pos (show b.mCapacity - b.mTail = 0 by omega)]
  rw [append]
  split
  · rfl
  · exact loop_leave hp 1

/-- One compaction makes room for a block no longer than the old tail. -/
theorem append_of_compact {b : SessionBuffer} {data : List UInt8} (h₁ : b.mTail < b.mCapacity)
    (h₂ : b.mCapacity < b.mTail + data.length) (h₃ : data.length ≤ b.mTail) :
    ∃ h, b.append data = some (true, b.compact.store data h) := by
  have hfit : b.compact.mTail + data.length ≤ b.compact.mCapacity := by
    simp only [compact_mTail, compact_mCapacity]
    omega
  refine ⟨hfit, ?_⟩
  rw [append, if_neg (by omega), loop_again (appendPass_again h₁ h₂)]
  exact loop_leave (appendPass_fits hfit) 0

/-- A block longer than the free space and than the old tail is never stored: each compaction
swaps the two lengths. -/
theorem appendPass_diverges {b : SessionBuffer} {data : List UInt8} (h₁ : b.mTail < b.mCapacity)
    (h₂ : b.mCapacity < b.mTail + data.length) (h₃ : b.mTail < data.length)
    (h₄ : data.length ≤ b.mCapacity) : Diverges (appendPass data) b := by
  let P : SessionBuffer → Prop := fun c =>
    c.mCapacity = b.mCapacity ∧ (c.mTail = b.mTail ∨ c.mTail = b.mCapacity - b.mTail)
  have hP : ∀ c, P c → ∃ c', appendPass data c = .again c' ∧ P c' := by
    rintro c ⟨hc, ht⟩
    refine ⟨c.compact, appendPass_again (by omega) (by omega), hc, ?_⟩
    simp only [compact_mTail]
    omega
  exact diverges_of_invariant hP ⟨rfl, Or.inl rfl⟩

/-- `append` hangs exactly on a block that passes the entry check and is longer than both the free
space and the tail. -/
theorem append_eq_none_iff {b : SessionBuffer} {data : List UInt8} :
    b.append data = none ↔ b.mTail < b.mCapacity ∧ b.mCapacity < b.mTail + data.length ∧
      b.mTail < data.length ∧ data.length ≤ b.mCapacity := by
  constructor
  · intro h
    have hcap : data.length ≤ b.mCapacity := by
      by_contra hn
      rw [append, if_pos (by omega)] at h
      cases h
    have hfit : ¬ b.mTail + data.length ≤ b.mCapacity := by
      intro hn
      rw [append_of_fits hn] at h
      cases h
    have hfull : b.mTail < b.mCapacity := by
      by_contra hn
      have := b.tail_le
      rw [append_of_full (by omega) (by omega)] at h
      cases h
    refine ⟨hfull, by omega, ?_, hcap⟩
    by_contra hn
    obtain ⟨_, h'⟩ := append_of_compact hfull (by omega) (Nat.le_of_not_lt hn)
    rw [h'] at h
    cases h
  · rintro ⟨h₁, h₂, h₃, h₄⟩
    rw [append, if_neg (by omega)]
    exact appendPass_diverges h₁ h₂ h₃ h₄ 2

/-- All the exits: the block fits, or is refused, or fits after one compaction, or never. -/
theorem append_cases (b : SessionBuffer) (data : List UInt8) :
    (∃ h : b.mTail + data.length ≤ b.mCapacity, b.append data = some (true, b.store data h)) ∨
    ((b.mCapacity < data.length ∨ b.mCapacity < b.mTail + data.length ∧ b.mTail = b.mCapacity) ∧
      b.append data = some (false, b)) ∨
    ((b.mTail < b.mCapacity ∧ b.mCapacity < b.mTail + data.length ∧ data.length ≤ b.mTail) ∧
      ∃ h, b.append data = some (true, b.compact.store data h)) ∨
    ((b.mTail < b.mCapacity ∧ b.mCapacity < b.mTail + data.length ∧ b.mTail < data.length ∧
      data.length ≤ b.mCapacity) ∧ b.append data = none) := by
  by_cases hcap : b.mCapacity < data.length
  · exact Or.inr (Or.inl ⟨Or.inl hcap, by rw [append, if_pos hcap]⟩)
  · by_cases hfit : b.mTail + data.length ≤ b.mCapacity
    · exact Or.inl ⟨hfit, append_of_fits hfit⟩
    · have hover : b.mCapacity < b.mTail + data.length := Nat.not_le.mp hfit
      by_cases hfull : b.mTail = b.mCapacity
      · exact Or.inr (Or.inl ⟨Or.inr ⟨hover, hfull⟩, append_of_full (by omega) hfull⟩)
      · have hlt : b.mTail < b.mCapacity := Nat.lt_of_le_of_ne b.tail_le hfull
        by_cases hlen : data.length ≤ b.mTail
        · exact Or.inr (Or.inr (Or.inl
            ⟨⟨hlt, hover, hlen⟩, append_of_compact hlt hover hlen⟩))
        · have hnone : b.append data = none := append_eq_none_iff.mpr
            ⟨hlt, hover, Nat.not_le.mp hlen, Nat.not_lt.mp hcap⟩
          exact Or.inr (Or.inr (Or.inr ⟨append_eq_none_iff.mp hnone, hnone⟩))

theorem append_mCapacity {b b' : SessionBuffer} {data : List UInt8} {r : Bool}
    (h : b.append data = some (r, b')) : b'.mCapacity = b.mCapacity := by
  rcases b.append_cases data with ⟨_, h'⟩ | ⟨-, h'⟩ | ⟨-, _, h'⟩ | ⟨-, h'⟩
  · rw [h'] at h
    cases h
    rfl
  · rw [h'] at h
    cases h
    rfl
  · rw [h'] at h
    cases h
    rfl
  · rw [h'] at h
    cases h

theorem recycle_mCapacity (b : SessionBuffer) (len : Nat) :
    (b.recycle len).2.mCapacity = b.mCapacity := by
  unfold recycle
  split
  · rfl
  · split <;> rfl

/-- Where `append` gives no result, its loop really never leaves. -/
theorem diverges_of_append_eq_none {b : SessionBuffer} {data : List UInt8}
    (h : b.append data = none) : Diverges (appendPass data) b := by
  obtain ⟨h₁, h₂, h₃, h₄⟩ := append_eq_none_iff.mp h
  exact appendPass_diverges h₁ h₂ h₃ h₄

end SessionBuffer

end Holdem
