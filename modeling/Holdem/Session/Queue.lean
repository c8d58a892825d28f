import Holdem.Session.Room
import Holdem.Support.Runs

/-!
# Session — Queue

A `SessionBuffer` over any sequence of calls, against the byte queue it stands for.  An `append`
that returns true should put the block behind the queue, a `recycle` take bytes off its head, a
`clear` empty it, and a call that returns false leave it alone (`BufferCall.onQueue`).

What becomes of a call is settled by where the two offsets stand and by the length of its block, so
the offsets are a system of their own (`Offsets.step`), and the buffer's calls are simulated by it
(`call_offsets`).  Each result below says of every sequence of calls on a new buffer exactly when
something holds of all of them, in terms of the lengths alone:

* `asQueue_iff_keeps`: the calls that return do what they do to a queue, so that the live bytes are
  the queue (`live_eq_queue`);
* `takes_iff_reaches`: an `append` with enough bytes free stores its block;
* `leaves_iff_settles`: the loop of `append` leaves.

The defect behind all three is the `memmove` of `append`, which keeps the free space behind the tail
where the live bytes were meant.
-/

namespace Holdem
open Support

/-- A call on a buffer, with its block or only the length of it. -/
inductive BufferCall (β : Type*) where
  | append (block : β)
  | recycle (len : Nat)
  | clear
  deriving DecidableEq, Repr

/-- The call without the bytes of its block. -/
def BufferCall.lengths : BufferCall (List UInt8) → BufferCall Nat
  | .append data => .append data.length
  | .recycle len => .recycle len
  | .clear       => .clear

/-- What a call that returned `r` does to a queue of bytes. -/
def BufferCall.onQueue (r : Bool) (q : List UInt8) : BufferCall (List UInt8) → List UInt8
  | .append data => if r then q ++ data else q
  | .recycle len => if r then q.drop len else q
  | .clear       => []

namespace SessionBuffer

/-- A call, with what it returns; `clear` returns nothing. -/
def call (b : SessionBuffer) : BufferCall (List UInt8) → Option (Bool × SessionBuffer)
  | .append data => b.append data
  | .recycle len => some (b.recycle len)
  | .clear       => some (true, b.clear)

/-- The buffer after a call that returns. -/
def step (b : SessionBuffer) (c : BufferCall (List UInt8)) : Option SessionBuffer :=
  (b.call c).map Prod.snd

/-- The call does to the live bytes what it does to a queue, if it returns. -/
def AsQueue (b : SessionBuffer) (c : BufferCall (List UInt8)) : Prop :=
  ∀ r b', b.call c = some (r, b') → b'.live = c.onQueue r b.live

/-- The call is no `append` that leaves out a block it has enough bytes free for. -/
def Takes (b : SessionBuffer) (c : BufferCall (List UInt8)) : Prop :=
  ∀ data, c = .append data → b.bufSize + data.length ≤ b.mCapacity →
    ∃ b', b.append data = some (true, b')

/-- The call is no `append` whose loop, once entered, never leaves. -/
def LoopLeaves (b : SessionBuffer) (c : BufferCall (List UInt8)) : Prop :=
  ∀ data, c = .append data → data.length ≤ b.mCapacity → Leaves (appendPass data) b

end SessionBuffer

/-! ### The offsets as a system -/

namespace Offsets

/-- `SessionBuffer::append`, as far as the offsets go. -/
def append (cap : Nat) (p : Offsets) (n : Nat) : Option (Bool × Offsets) :=
  if n > cap then some (false, p)
  else if p.tail + n ≤ cap then some (true, ⟨p.head, p.tail + n⟩)
  else if p.tail = cap then some (false, p)
  else if n ≤ p.tail then some (true, ⟨0, cap - p.tail + n⟩)
  else none

/-- `SessionBuffer::recycle`, as far as the offsets go. -/
def recycle (p : Offsets) (len : Nat) : Bool × Offsets :=
  if len = 0 ∨ p.tail - p.head < len then (false, p) else (true, ⟨p.head + len, p.tail⟩)

/-- A call, as far as the offsets go. -/
def call (cap : Nat) (p : Offsets) : BufferCall Nat → Option (Bool × Offsets)
  | .append n    => p.append cap n
  | .recycle len => some (p.recycle len)
  | .clear       => some (true, ⟨0, 0⟩)

/-- The offsets after a call that returns. -/
def step (cap : Nat) (p : Offsets) (c : BufferCall Nat) : Option Offsets :=
  (p.call cap c).map Prod.snd

theorem append_of_fits {cap n : Nat} {p : Offsets} (h : p.tail + n ≤ cap) :
    p.append cap n = some (true, ⟨p.head, p.tail + n⟩) := by
  rw [append, if_neg (by omega), if_pos h]

theorem append_of_refused {cap n : Nat} {p : Offsets}
    (h : cap < n ∨ cap < p.tail + n ∧ p.tail = cap) : p.append cap n = some (false, p) := by
  rw [append]
  by_cases hcap : n > cap
  · rw [if_pos hcap]
  · obtain ⟨hover, hfull⟩ := h.resolve_left hcap
    rw [if_neg hcap, if_neg (Nat.not_le.mpr hover), if_pos hfull]

theorem append_of_compact {cap n : Nat} {p : Offsets} (h₁ : p.tail < cap) (h₂ : cap < p.tail + n)
    (h₃ : n ≤ p.tail) : p.append cap n = some (true, ⟨0, cap - p.tail + n⟩) := by
  rw [append, if_neg (by omega), if_neg (Nat.not_le.mpr h₂), if_neg (Nat.ne_of_lt h₁), if_pos h₃]

theorem append_of_hang {cap n : Nat} {p : Offsets} (h₁ : p.tail < cap) (h₂ : cap < p.tail + n)
    (h₃ : p.tail < n) (h₄ : n ≤ cap) : p.append cap n = none := by
  rw [append, if_neg (Nat.not_lt.mpr h₄), if_neg (Nat.not_le.mpr h₂), if_neg (Nat.ne_of_lt h₁),
    if_neg (Nat.not_le.mpr h₃)]

/-- An `append` that makes room by a compaction finds as much free space as there are live bytes. -/
def Keeps (cap : Nat) (p : Offsets) : BufferCall Nat → Prop
  | .append n => p.tail < cap → cap < p.tail + n → n ≤ p.tail → cap - p.tail = p.tail - p.head
  | _         => True

/-- An `append` with enough bytes free finds them behind the tail, or the tail short of the end and
no shorter than the block. -/
def Reaches (cap : Nat) (p : Offsets) : BufferCall Nat → Prop
  | .append n => p.tail - p.head + n ≤ cap → p.tail + n ≤ cap ∨ p.tail < cap ∧ n ≤ p.tail
  | _         => True

/-- A block that does not fit behind a tail short of the end is no longer than the tail, unless the
entry check refuses it. -/
def Settles (cap : Nat) (p : Offsets) : BufferCall Nat → Prop
  | .append n => p.tail < cap → cap < p.tail + n → n ≤ cap → n ≤ p.tail
  | _         => True

instance (cap : Nat) (p : Offsets) : ∀ c, Decidable (p.Keeps cap c)
  | .append _  => inferInstanceAs (Decidable (_ → _ → _ → _))
  | .recycle _ => isTrue trivial
  | .clear     => isTrue trivial

instance (cap : Nat) (p : Offsets) : ∀ c, Decidable (p.Reaches cap c)
  | .append _  => inferInstanceAs (Decidable (_ → _))
  | .recycle _ => isTrue trivial
  | .clear     => isTrue trivial

instance (cap : Nat) (p : Offsets) : ∀ c, Decidable (p.Settles cap c)
  | .append _  => inferInstanceAs (Decidable (_ → _ → _ → _))
  | .recycle _ => isTrue trivial
  | .clear     => isTrue trivial

end Offsets

namespace SessionBuffer

/-! ### The offsets simulate the buffer -/

/-- Where `append` leaves the offsets, and whether it hangs, is settled by the length. -/
theorem append_offsets (b : SessionBuffer) (data : List UInt8) :
    (b.append data).map (Prod.map id offsets) = b.offsets.append b.mCapacity data.length := by
  rcases b.append_cases data with ⟨hfit, h⟩ | ⟨hwhy, h⟩ | ⟨⟨hlt, hover, hlen⟩, hfit, h⟩ |
      ⟨⟨hlt, hover, hlen, hcap⟩, h⟩
  · rw [h]
    exact (Offsets.append_of_fits (p := b.offsets) hfit).symm
  · rw [h]
    exact (Offsets.append_of_refused (p := b.offsets) hwhy).symm
  · rw [h]
    exact (Offsets.append_of_compact (p := b.offsets) hlt hover hlen).symm
  · rw [h]
    exact (Offsets.append_of_hang (p := b.offsets) hlt hover hlen hcap).symm

theorem recycle_offsets (b : SessionBuffer) (len : Nat) :
    Prod.map id offsets (b.recycle len) = b.offsets.recycle len := by
  by_cases h : len = 0 ∨ b.bufSize < len
  · have hoff : b.offsets.recycle len = (false, b.offsets) := if_pos h
    rw [b.recycle_of_not_le h, hoff]
    rfl
  · obtain ⟨h₀, hle⟩ := not_or.mp h
    have hoff : b.offsets.recycle len = (true, ⟨b.mHead + len, b.mTail⟩) := if_neg h
    obtain ⟨b', hb', -, htail, hhead, -⟩ :=
      b.recycle_of_le (Nat.pos_of_ne_zero h₀) (Nat.not_lt.mp hle)
    rw [hb', hoff, ← hhead, ← htail]
    rfl

/-- What becomes of a call is settled by the lengths. -/
theorem call_offsets (b : SessionBuffer) (c : BufferCall (List UInt8)) :
    (b.call c).map (Prod.map id offsets) = b.offsets.call b.mCapacity c.lengths := by
  cases c with
  | append data => exact append_offsets b data
  | recycle len => exact congrArg some (recycle_offsets b len)
  | clear => rfl

theorem step_offsets (b : SessionBuffer) (c : BufferCall (List UInt8)) :
    b.offsets.step b.mCapacity c.lengths = (b.step c).map offsets := by
  rw [Offsets.step, ← call_offsets, step, Option.map_map, Option.map_map]
  rfl

theorem step_mCapacity {b b' : SessionBuffer} {c : BufferCall (List UInt8)}
    (h : b.step c = some b') : b'.mCapacity = b.mCapacity := by
  obtain ⟨⟨r, b''⟩, hcall, rfl⟩ := Option.map_eq_some_iff.mp h
  cases c with
  | append data => exact append_mCapacity hcall
  | recycle len =>
      have hr : b.recycle len = (r, b'') := Option.some.inj hcall
      have hcap := b.recycle_mCapacity len
      rwa [hr] at hcap
  | clear =>
      cases hcall
      rfl

/-- What holds of a call exactly by the lengths holds of every call of a run exactly by the
lengths. -/
theorem guarded_iff_lengths {G : SessionBuffer → BufferCall (List UInt8) → Prop}
    {G' : Nat → Offsets → BufferCall Nat → Prop}
    (hG : ∀ b c, G b c ↔ G' b.mCapacity b.offsets c.lengths) (b : SessionBuffer)
    (calls : List (BufferCall (List UInt8))) :
    Guarded step G b calls ↔ Guarded (Offsets.step b.mCapacity) (G' b.mCapacity) b.offsets
      (calls.map BufferCall.lengths) := by
  refine guarded_map_iff (P := fun b' => b'.mCapacity = b.mCapacity) ?_ ?_ ?_ rfl
  · intro b' c hb'
    rw [← hb']
    exact step_offsets b' c
  · intro b' c b'' hb' hstep
    exact (step_mCapacity hstep).trans hb'
  · intro b' c hb'
    rw [← hb']
    exact hG b' c

/-! ### One call -/

/-- A compaction that keeps the wrong number of bytes is all that tells `append` from a queue. -/
theorem asQueue_iff (b : SessionBuffer) (c : BufferCall (List UInt8)) :
    b.AsQueue c ↔ b.offsets.Keeps b.mCapacity c.lengths := by
  cases c with
  | recycle len =>
      refine iff_of_true (fun r b' h => ?_) trivial
      have hr : b.recycle len = (r, b') := Option.some.inj h
      by_cases hno : len = 0 ∨ b.bufSize < len
      · cases hr.symm.trans (b.recycle_of_not_le hno)
        rfl
      · obtain ⟨h₀, hle⟩ := not_or.mp hno
        obtain ⟨b'', hb'', hlive, -⟩ :=
          b.recycle_of_le (Nat.pos_of_ne_zero h₀) (Nat.not_lt.mp hle)
        cases hr.symm.trans hb''
        exact hlive
  | clear =>
      refine iff_of_true (fun r b' h => ?_) trivial
      cases Option.some.inj h
      rfl
  | append data =>
      rcases b.append_cases data with ⟨hfit, h⟩ | ⟨hwhy, h⟩ | ⟨⟨hlt, hover, hlen⟩, hfit, h⟩ |
          ⟨⟨hlt, hover, hlen, hcap⟩, h⟩
      · refine iff_of_true (fun r b' h' => ?_) fun _ hover _ => absurd hfit (Nat.not_le.mpr hover)
        cases h.symm.trans h'
        exact live_store b data hfit
      · refine iff_of_true (fun r b' h' => ?_) fun hlt hover hlen => ?_
        · cases h.symm.trans h'
          rfl
        · simp only [offsets_tail] at hlt hover hlen
          omega
      · -- the compaction keeps the free space, whatever is live
        constructor
        · intro hq _ _ _
          have hlen := congrArg List.length (hq true _ h)
          simp only [live_store, BufferCall.onQueue, if_true, List.length_append, length_live,
            Nat.add_right_cancel_iff] at hlen
          exact hlen
        · intro hk r b' h'
          cases h.symm.trans h'
          rw [live_store, live_compact_of_eq b (hk hlt hover hlen)]
          rfl
      · refine iff_of_true (fun r b' h' => ?_) fun _ _ hle => absurd hle (Nat.not_le.mpr hlen)
        cases h.symm.trans h'

/-- A block with enough bytes free is stored when they lie behind the tail, or when one compaction
can bring them there. -/
theorem takes_iff (b : SessionBuffer) (c : BufferCall (List UInt8)) :
    b.Takes c ↔ b.offsets.Reaches b.mCapacity c.lengths := by
  cases c with
  | recycle len => exact iff_of_true nofun trivial
  | clear => exact iff_of_true nofun trivial
  | append data =>
      have hone : b.Takes (.append data) ↔ (b.bufSize + data.length ≤ b.mCapacity →
          ∃ b', b.append data = some (true, b')) :=
        ⟨fun h => h data rfl, fun h d hd => by cases hd; exact h⟩
      refine hone.trans (imp_congr_right fun _ => ?_)
      simp only [offsets_tail]
      rcases b.append_cases data with ⟨hfit, h⟩ | ⟨hwhy, h⟩ | ⟨⟨hlt, hover, hlen⟩, hfit, h⟩ |
          ⟨⟨hlt, hover, hlen, hcap⟩, h⟩
      · exact iff_of_true ⟨_, h⟩ (Or.inl hfit)
      · refine iff_of_false (fun ⟨_, h'⟩ => ?_) (by omega)
        cases h.symm.trans h'
      · exact iff_of_true ⟨_, h⟩ (Or.inr ⟨hlt, hlen⟩)
      · refine iff_of_false (fun ⟨_, h'⟩ => ?_) (by omega)
        cases h.symm.trans h'

/-- The loop of `append` leaves unless each of the two tails it alternates between leaves too little
room. -/
theorem loopLeaves_iff (b : SessionBuffer) (c : BufferCall (List UInt8)) :
    b.LoopLeaves c ↔ b.offsets.Settles b.mCapacity c.lengths := by
  cases c with
  | recycle len => exact iff_of_true nofun trivial
  | clear => exact iff_of_true nofun trivial
  | append data =>
      have hone : b.LoopLeaves (.append data) ↔
          (data.length ≤ b.mCapacity → Leaves (appendPass data) b) :=
        ⟨fun h => h data rfl, fun h d hd => by cases hd; exact h⟩
      rw [hone]
      constructor
      · intro h hlt hover hcap
        by_contra hlen
        exact (appendPass_diverges hlt hover (Nat.not_le.mp hlen) hcap).not_leaves (h hcap)
      · intro h hcap
        cases happ : b.append data with
        | none =>
            obtain ⟨hlt, hover, hlen, -⟩ := append_eq_none_iff.mp happ
            exact absurd (h hlt hover hcap) (Nat.not_le.mpr hlen)
        | some r =>
            rw [append, if_neg (Nat.not_lt.mpr hcap)] at happ
            exact ⟨2, r, happ⟩

/-! ### Every sequence of calls -/

variable (mem : Memory UInt8) (calls : List (BufferCall (List UInt8)))

/-- **Exactly when the buffer is a byte queue.**  Every call that returns does to the live bytes
what it does to a queue, exactly when every compaction finds as much free space as there are live
bytes. -/
theorem asQueue_iff_keeps :
    Guarded step AsQueue (.new mem) calls ↔
      Guarded (Offsets.step capacity) (Offsets.Keeps capacity) ⟨0, 0⟩
        (calls.map BufferCall.lengths) :=
  guarded_iff_lengths asQueue_iff (.new mem) calls

/-- Behind ten live bytes near the end, a block makes `append` keep 31072 bytes, of which ten are
live. -/
theorem not_asQueue_drifted :
    ¬ Guarded step AsQueue (.new fun _ => 0)
      [.append (List.replicate 100000 0), .recycle 99990, .append (List.replicate 50000 0)] := by
  intro h
  have hk := (guarded_iff_lengths asQueue_iff (.new fun _ => 0) _).mp h
  simp only [List.map_cons, List.map_nil, BufferCall.lengths, List.length_replicate] at hk
  exact absurd hk (by decide)

/-- A buffer beside the queue it stands for, after a call that returns. -/
def stepQueue (st : SessionBuffer × List UInt8) (c : BufferCall (List UInt8)) :
    Option (SessionBuffer × List UInt8) :=
  (st.1.call c).map fun r => (r.2, c.onQueue r.1 st.2)

/-- **The buffer refines a byte queue**, along every run in which each compaction finds as much free
space as there are live bytes. -/
theorem live_eq_queue {mem : Memory UInt8} {calls : List (BufferCall (List UInt8))}
    {b : SessionBuffer} {q : List UInt8}
    (hk : Guarded (Offsets.step capacity) (Offsets.Keeps capacity) ⟨0, 0⟩
      (calls.map BufferCall.lengths))
    (h : run stepQueue (.new mem, []) calls = some (b, q)) : b.live = q := by
  have hq : Guarded step AsQueue (.new mem) (calls.map id) := by
    rw [List.map_id]
    exact (guarded_iff_lengths asQueue_iff (.new mem) calls).mpr hk
  have hg : Guarded stepQueue (fun st c => st.1.AsQueue c) (.new mem, []) calls := by
    refine (guarded_map_iff (P := fun _ => True) (f := Prod.fst) ?_ ?_ ?_ trivial).mpr hq
    · intro st c _
      rw [stepQueue, Option.map_map]
      rfl
    · exact fun _ _ _ _ _ => trivial
    · exact fun _ _ _ => Iff.rfl
  refine guarded_invariant (P := fun st => st.1.live = st.2) ?_ rfl hg h
  rintro ⟨b, q⟩ c st' hlive hc hstep
  obtain ⟨⟨r, b'⟩, hcall, rfl⟩ := Option.map_eq_some_iff.mp hstep
  rw [← show b.live = q from hlive]
  exact hc r b' hcall

/-- **Exactly when `append` refuses only for lack of room.** -/
theorem takes_iff_reaches :
    Guarded step Takes (.new mem) calls ↔
      Guarded (Offsets.step capacity) (Offsets.Reaches capacity) ⟨0, 0⟩
        (calls.map BufferCall.lengths) :=
  guarded_iff_lengths takes_iff (.new mem) calls

/-- A buffer filled to the end and recycled to the last byte takes no byte more. -/
theorem not_takes_filled :
    ¬ Guarded step Takes (.new fun _ => 0)
      [.append (List.replicate 131072 0), .recycle 131072, .append [0]] := by
  intro h
  have hr := (guarded_iff_lengths takes_iff (.new fun _ => 0) _).mp h
  simp only [List.map_cons, List.map_nil, BufferCall.lengths, List.length_replicate] at hr
  exact absurd hr (by decide)

/-- **Exactly when the loop of `append` leaves.** -/
theorem leaves_iff_settles :
    Guarded step LoopLeaves (.new mem) calls ↔
      Guarded (Offsets.step capacity) (Offsets.Settles capacity) ⟨0, 0⟩
        (calls.map BufferCall.lengths) :=
  guarded_iff_lengths loopLeaves_iff (.new mem) calls

/-- A block of 120000 bytes behind 100000 others: the tail goes from 100000 to 31072 and back. -/
theorem not_loopLeaves_long :
    ¬ Guarded step LoopLeaves (.new fun _ => 0)
      [.append (List.replicate 100000 0), .append (List.replicate 120000 0)] := by
  intro h
  have hs := (guarded_iff_lengths loopLeaves_iff (.new fun _ => 0) _).mp h
  simp only [List.map_cons, List.map_nil, BufferCall.lengths, List.length_replicate] at hs
  exact absurd hs (by decide)

end SessionBuffer

end Holdem
