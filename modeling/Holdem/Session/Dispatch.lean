import Holdem.Session.Buffer
import Holdem.Session.Frame

/-!
# Session — Dispatch

`SessionHandle::dispatch`, over any `process`: the handlers never touch the read buffer, so the rest
of the session is a state `S` that `process` acts on.  A pass of the loop reads a header behind the
head of the buffer, shuts the session down on any of three malformed headers, leaves when the frame
is not complete, and otherwise processes the frame and recycles its bytes.

`dispatch_eq` says what the loop comes to: it always leaves, it calls `process` on the frames the
parse of the live bytes takes, in order, it shuts down exactly when the parse meets something bad,
and it leaves what the parse leaves, behind the same tail.  `dispatch_incremental` spells this out
on the bytes: the frames taken are all those the live bytes begin with, and it does not matter
whether the bytes are there at once or come in parts.
-/

namespace Holdem
open Support

variable {S : Type*}

/-- One pass of the loop of `dispatch`.  The loop leaves with whether the session was shut down. -/
def dispatchPass (o : HostOrder) (cmds : CmdRange) (process : MsgHeader → List UInt8 → S → S) :
    SessionBuffer × S → Pass (SessionBuffer × S) (Bool × SessionBuffer × S)
  | (b, s) =>
    if b.bufSize < MsgHeader.size then .leave (false, b, s)
    else
      let header := (MsgHeader.UnpackFromArray o .zero (b.buffer 0 MsgHeader.size) MsgHeader.size).2
      if header.m_nLen.toNat < MsgHeader.size then .leave (true, b, s)
      else if header.m_nLen.toNat ≥ maxPackSize then .leave (true, b, s)
      else if header.m_nCmd < cmds.first ∨ header.m_nCmd > cmds.last then .leave (true, b, s)
      else if b.bufSize < header.m_nLen.toNat then .leave (false, b, s)
      else .again
        ((b.recycle header.m_nLen.toNat).2,
          process header (b.buffer MsgHeader.size (header.m_nLen.toNat - MsgHeader.size)) s)

/-- `SessionHandle::dispatch`.  Every pass but the last recycles, so the passes are no more than the
live bytes. -/
def dispatch (o : HostOrder) (cmds : CmdRange) (process : MsgHeader → List UInt8 → S → S)
    (b : SessionBuffer) (s : S) : Option (Bool × SessionBuffer × S) :=
  loop (dispatchPass o cmds process) (b.bufSize + 1) (b, s)

/-- The effect of a call of `process` for each frame, in order. -/
def processAll {cmds : CmdRange} (process : MsgHeader → List UInt8 → S → S)
    (fs : List (Frame cmds)) (s : S) : S :=
  fs.foldl (fun s f => process f.header f.body s) s

/-! ### One pass -/

variable {o : HostOrder} {cmds : CmdRange} {process : MsgHeader → List UInt8 → S → S}

namespace SessionBuffer

theorem buffer_size_eq {b : SessionBuffer} (h : MsgHeader.size ≤ b.bufSize) :
    b.buffer 0 MsgHeader.size = b.live.take MsgHeader.size :=
  (take_slice _ _ h).symm

theorem buffer_body_eq {b : SessionBuffer} {n : Nat} (h₂₀ : MsgHeader.size ≤ n)
    (h : n ≤ b.bufSize) : b.buffer MsgHeader.size (n - MsgHeader.size) =
      (b.live.drop MsgHeader.size).take (n - MsgHeader.size) := by
  rw [live, buffer, buffer, Nat.add_zero, drop_slice _ _ (by omega), take_slice _ _ (by omega)]

/-- The header `dispatch` unpacks is the one the live bytes spell. -/
theorem unpack_header {b : SessionBuffer} (h : MsgHeader.size ≤ b.bufSize) :
    (MsgHeader.UnpackFromArray o .zero (b.buffer 0 MsgHeader.size) MsgHeader.size).2 =
      MsgHeader.decode b.live := by
  have hlen : (b.live.take MsgHeader.size).length = MsgHeader.size := by
    rw [List.length_take, length_live]
    omega
  have hdec := MsgHeader.decode_append (Nat.le_of_eq hlen.symm) (b.live.drop MsgHeader.size)
  rw [List.take_append_drop] at hdec
  rw [buffer_size_eq h, MsgHeader.unpackFromArray_eq o _ (Nat.le_refl _) (by omega), hdec]

end SessionBuffer

/-- The command test fails exactly between the two bounds. -/
theorem not_outside_iff {x first last : UInt32} :
    ¬ (x < first ∨ x > last) ↔ first ≤ x ∧ x ≤ last := by
  rw [not_or, UInt32.not_lt, gt_iff_lt, UInt32.not_lt]

theorem dispatchPass_more {b : SessionBuffer} (h : frameHead cmds b.live = .more) (s : S) :
    dispatchPass o cmds process (b, s) = .leave (false, b, s) := by
  rw [dispatchPass]
  by_cases h20 : b.bufSize < MsgHeader.size
  · rw [if_pos h20]
  · rw [if_neg h20]
    simp only [SessionBuffer.unpack_header (Nat.not_lt.mp h20)]
    rcases frameHead_eq_more h with hlen | ⟨⟨h₁, h₂, h₃, h₄⟩, hlen⟩
    · exact absurd (b.length_live ▸ hlen) h20
    · rw [if_neg (Nat.not_lt.mpr h₁), if_neg (Nat.not_le.mpr h₂),
        if_neg (not_outside_iff.mpr ⟨h₃, h₄⟩), if_pos (b.length_live ▸ hlen)]

theorem dispatchPass_bad {b : SessionBuffer} (h : frameHead cmds b.live = .bad) (s : S) :
    dispatchPass o cmds process (b, s) = .leave (true, b, s) := by
  obtain ⟨h20, hacc⟩ := frameHead_eq_bad h
  rw [b.length_live] at h20
  rw [dispatchPass, if_neg (Nat.not_lt.mpr h20)]
  simp only [SessionBuffer.unpack_header h20]
  -- whichever of the three conditions fails, the session is shut down
  by_cases h₁ : (MsgHeader.decode b.live).m_nLen.toNat < MsgHeader.size
  · rw [if_pos h₁]
  · rw [if_neg h₁]
    by_cases h₂ : (MsgHeader.decode b.live).m_nLen.toNat ≥ maxPackSize
    · rw [if_pos h₂]
    · rw [if_neg h₂, if_pos]
      by_contra hn
      exact hacc ⟨Nat.not_lt.mp h₁, Nat.not_le.mp h₂, not_outside_iff.mp hn⟩

theorem dispatchPass_frame {b : SessionBuffer} {f : Frame cmds} {r : List UInt8}
    (h : frameHead cmds b.live = .frame f r) (s : S) :
    ∃ b', dispatchPass o cmds process (b, s) = .again (b', process f.header f.body s) ∧
      b'.live = r ∧ b'.mTail = b.mTail ∧ b'.mCapacity = b.mCapacity := by
  obtain ⟨h20, ⟨h₁, h₂, h₃, h₄⟩, hle, hh, hb, rfl⟩ := frameHead_eq_frame h
  rw [b.length_live] at h20 hle
  have hpos : 0 < (MsgHeader.decode b.live).m_nLen.toNat := Nat.lt_of_lt_of_le (by decide) h₁
  obtain ⟨b', hb', hlive, htail, -, hcap⟩ := b.recycle_of_le hpos hle
  refine ⟨b', ?_, hlive, htail, hcap⟩
  rw [dispatchPass, if_neg (Nat.not_lt.mpr h20)]
  simp only [SessionBuffer.unpack_header h20]
  rw [if_neg (Nat.not_lt.mpr h₁), if_neg (Nat.not_le.mpr h₂),
    if_neg (not_outside_iff.mpr ⟨h₃, h₄⟩), if_neg (Nat.not_lt.mpr hle),
    SessionBuffer.buffer_body_eq h₁ hle, hb', hh, hb]

/-! ### The loop -/

/-- **`dispatch` is the parse of the live bytes.** -/
theorem dispatch_eq (b : SessionBuffer) (s : S) :
    ∃ b', dispatch o cmds process b s =
        some (((framing cmds).parse b.live).bad, b',
          processAll process ((framing cmds).parse b.live).frames s) ∧
      b'.live = ((framing cmds).parse b.live).rest ∧ b'.mTail = b.mTail ∧
      b'.mCapacity = b.mCapacity := by
  suffices h : ∀ (l : List UInt8) (b : SessionBuffer) (s : S) (n : Nat), b.live = l →
      l.length < n → ∃ b', loop (dispatchPass o cmds process) n (b, s) =
        some (((framing cmds).parse l).bad, b',
          processAll process ((framing cmds).parse l).frames s) ∧
      b'.live = ((framing cmds).parse l).rest ∧ b'.mTail = b.mTail ∧
      b'.mCapacity = b.mCapacity from
    h b.live b s _ rfl (by rw [SessionBuffer.length_live]; omega)
  -- along the parse: every frame is one more pass, and what is left is shorter
  intro l
  induction l using Framing.parse_induction (F := framing cmds) with
  | more l hh =>
      rintro b s n rfl hn
      obtain ⟨n, rfl⟩ : ∃ k, n = k + 1 := ⟨n - 1, by omega⟩
      rw [loop_leave (dispatchPass_more hh s), Framing.parse_of_more hh]
      exact ⟨b, rfl, rfl, rfl, rfl⟩
  | bad l hh =>
      rintro b s n rfl hn
      obtain ⟨n, rfl⟩ : ∃ k, n = k + 1 := ⟨n - 1, by omega⟩
      rw [loop_leave (dispatchPass_bad hh s), Framing.parse_of_bad hh]
      exact ⟨b, rfl, rfl, rfl, rfl⟩
  | frame l f r hh ih =>
      rintro b s n rfl hn
      obtain ⟨n, rfl⟩ : ∃ k, n = k + 1 := ⟨n - 1, by omega⟩
      obtain ⟨b', hpass, hlive, htail, hcap⟩ :
          ∃ b', dispatchPass o cmds process (b, s) = .again (b', process f.header f.body s) ∧
            b'.live = r ∧ b'.mTail = b.mTail ∧ b'.mCapacity = b.mCapacity :=
        dispatchPass_frame hh s
      have hlt := (framing cmds).length_rest_lt hh
      obtain ⟨b'', hloop, hlive', htail', hcap'⟩ :=
        ih b' (process f.header f.body s) n hlive (by omega)
      rw [loop_again hpass, Framing.parse_of_frame hh]
      exact ⟨b'', hloop, hlive', htail'.trans htail, hcap'.trans hcap⟩

/-! ### An incremental parser -/

/-- **`dispatch` is an incremental frame parser.**  It processes all the frames the live bytes begin
with, shuts down exactly when the next header is there and is not accepted, and leaves the rest, at
most 32766 bytes of it.  More bytes behind the rest are taken as they would have been behind the
whole. -/
theorem dispatch_incremental (o : HostOrder) (cmds : CmdRange)
    (process : MsgHeader → List UInt8 → S → S) (b : SessionBuffer) (s : S) :
    ∃ (frames : List (Frame cmds)) (shut : Bool) (b' : SessionBuffer),
      dispatch o cmds process b s = some (shut, b', processAll process frames s) ∧
      b.live = (framing cmds).encodeAll frames ++ b'.live ∧
      (∀ fs, (framing cmds).encodeAll fs <+: b.live → fs <+: frames) ∧
      (shut = true ↔
        MsgHeader.size ≤ b'.live.length ∧ ¬ cmds.Accepts (MsgHeader.decode b'.live)) ∧
      (shut = false → b'.live.length ≤ 32766) ∧
      (shut = false → ∀ (more : List UInt8) (rest whole : SessionBuffer),
        rest.live = b'.live ++ more → whole.live = b.live ++ more →
        ∃ (frames' : List (Frame cmds)) (shut' : Bool) (rest' whole' : SessionBuffer),
          dispatch o cmds process rest (processAll process frames s) =
            some (shut', rest', processAll process frames' (processAll process frames s)) ∧
          dispatch o cmds process whole s =
            some (shut', whole', processAll process (frames ++ frames') s) ∧
          rest'.live = whole'.live) := by
  obtain ⟨b', hdis, hlive, -, -⟩ : ∃ b', dispatch o cmds process b s = _ ∧ _ := dispatch_eq b s
  refine ⟨_, _, b', hdis, ?_, fun fs h => Framing.prefix_frames h, ?_, fun h => ?_, ?_⟩
  · rw [hlive]
    exact ((framing cmds).parse_sound b.live).symm
  · rw [hlive]
    exact Framing.bad_iff_head_rest.trans frameHead_eq_bad_iff
  · have hlt := length_succ_lt_of_frameHead_more (Framing.head_rest h)
    rw [hlive]
    exact Nat.le_of_lt_succ (Nat.lt_of_succ_lt_succ hlt)
  · intro h more rest whole hrest hwhole
    obtain ⟨rest', hr, hrlive, -, -⟩ : ∃ b', dispatch o cmds process rest
        (processAll process ((framing cmds).parse b.live).frames s) = _ ∧ _ := dispatch_eq rest _
    obtain ⟨whole', hw, hwlive, -, -⟩ : ∃ b', dispatch o cmds process whole s = _ ∧ _ :=
      dispatch_eq whole s
    -- the parse of the whole goes on where that of the first part stopped
    rw [hrest, hlive] at hr hrlive
    rw [hwhole, Framing.parse_append h] at hw hwlive
    exact ⟨_, _, rest', whole', hr, hw, hrlive.trans hwlive.symm⟩

end Holdem
