import Holdem.Session.Buffer

/-!
# Session — Room

What `append` does to the live bytes, read off the two offsets alone.  There is *room* for a block
when it fits behind the tail, or when the free space behind the tail is not empty and is exactly as
long as the live bytes, so that the compaction happens to keep them.

* `append_of_room`: with room, the live bytes grow by the block, and the offsets drift by `push`;
* `append_of_not_room`: without room, the loop hangs, or the block is refused, or what is live
  afterwards has the wrong length.
-/

namespace Holdem
open Support

/-- Where the two offsets of a buffer stand. -/
@[ext] structure Offsets where
  head : Nat
  tail : Nat

namespace Offsets

/-- A block of `n` bytes is stored without harm to the live bytes. -/
def Room (cap : Nat) (p : Offsets) (n : Nat) : Prop :=
  p.tail + n ≤ cap ∨ p.tail < cap ∧ cap - p.tail = p.tail - p.head

instance (cap : Nat) (p : Offsets) (n : Nat) : Decidable (p.Room cap n) :=
  inferInstanceAs (Decidable (_ ∨ _ ∧ _))

/-- The offsets after a block of `n` bytes that has room. -/
def push (cap : Nat) (p : Offsets) (n : Nat) : Offsets :=
  if p.tail + n ≤ cap then ⟨p.head, p.tail + n⟩ else ⟨0, cap - p.tail + n⟩

end Offsets

namespace SessionBuffer

/-- The offsets of a buffer. -/
def offsets (b : SessionBuffer) : Offsets := ⟨b.mHead, b.mTail⟩

@[simp] theorem offsets_head (b : SessionBuffer) : b.offsets.head = b.mHead := rfl

@[simp] theorem offsets_tail (b : SessionBuffer) : b.offsets.tail = b.mTail := rfl

/-- With room for it, the block is put behind the live bytes. -/
theorem append_of_room {b : SessionBuffer} {data : List UInt8}
    (h : b.offsets.Room b.mCapacity data.length) (hcap : b.bufSize + data.length ≤ b.mCapacity) :
    ∃ b', b.append data = some (true, b') ∧ b'.live = b.live ++ data ∧
      b'.offsets = b.offsets.push b.mCapacity data.length ∧ b'.mCapacity = b.mCapacity := by
  by_cases hfit : b.mTail + data.length ≤ b.mCapacity
  · exact ⟨b.store data hfit, append_of_fits hfit, live_store b data hfit, (if_pos hfit).symm,
      rfl⟩
  · rcases h with h | ⟨hlt, heq⟩
    · exact absurd h hfit
    · -- the compaction keeps as many bytes as are live, and the block then fits
      have htail : data.length ≤ b.mTail := by
        simp only [offsets, bufSize] at heq hcap hlt
        omega
      obtain ⟨hfit', happ⟩ := append_of_compact hlt (Nat.not_le.mp hfit) htail
      refine ⟨b.compact.store data hfit', happ, ?_, (if_neg hfit).symm, rfl⟩
      rw [live_store, live_compact_of_eq b heq]

/-- Without room for it, the block is not put behind the live bytes, by the lengths alone. -/
theorem append_of_not_room {b : SessionBuffer} {data : List UInt8}
    (h : ¬ b.offsets.Room b.mCapacity data.length) :
    b.append data = none ∨
      b.append data = some (false, b) ∧ data ≠ [] ∧
        (b.mTail = b.mCapacity ∨ b.mCapacity < data.length) ∨
      ∃ b', b.append data = some (true, b') ∧ b'.mHead = 0 ∧
        b'.mTail = b.mCapacity - b.mTail + data.length ∧ b.mCapacity - b.mTail ≠ b.bufSize ∧
        b.mCapacity < b.mTail + data.length ∧ b'.mCapacity = b.mCapacity := by
  obtain ⟨hfit, hcompact⟩ := not_or.mp h
  simp only [offsets] at hfit hcompact
  have hne : data ≠ [] := by
    rintro rfl
    have := b.tail_le
    simp only [List.length_nil] at hfit
    omega
  rcases b.append_cases data with
    ⟨hin, -⟩ | ⟨hfull, happ⟩ | ⟨⟨hlt, hover, -⟩, hfit', happ⟩ | ⟨-, hnone⟩
  · exact absurd hin hfit
  · refine Or.inr (Or.inl ⟨happ, hne, ?_⟩)
    rcases hfull with hcap | ⟨-, hfull⟩
    · exact Or.inr hcap
    · exact Or.inl hfull
  · exact Or.inr (Or.inr ⟨_, happ, rfl, rfl, fun heq => hcompact ⟨hlt, heq⟩, hover, rfl⟩)
  · exact Or.inl hnone

/-- Without room, what is live afterwards has the wrong length. -/
theorem bufSize_append_of_not_room {b b' : SessionBuffer} {data : List UInt8} {r : Bool}
    (h : ¬ b.offsets.Room b.mCapacity data.length) (happ : b.append data = some (r, b')) :
    b'.bufSize ≠ b.bufSize + data.length := by
  rcases append_of_not_room h with hn | ⟨hf, hne, -⟩ | ⟨c, hc, hhead, htail, hr, -, -⟩
  · rw [hn] at happ
    cases happ
  · rw [hf] at happ
    cases happ
    have := List.length_pos_iff.mpr hne
    omega
  · rw [hc] at happ
    cases happ
    rw [bufSize, hhead, htail]
    omega

end SessionBuffer

end Holdem
