import Mathlib.Data.List.Infix

/-!
# Support — Framing

Streams cut into self-delimiting frames, over any alphabet and any type of frame.  A `Framing` says
how a frame is written (`encode`) and what stands at the head of a stream (`head`): a frame and what
follows it, something no frame begins with, or too little to tell.

`parse` takes frames off the head until it cannot.  What it does not depend on is how the stream
arrives: `parse_append` continues a parse at the rest the first part left, so a parse of the parts
in turn is a parse of the whole.  A stream written frame by frame is read back frame by frame
(`parse_encodeAll`), and what a parse has taken is a written prefix of the stream (`parse_sound`).
-/

namespace Holdem.Support

/-- What stands at the head of a stream. -/
inductive Head (α β : Type*) where
  | more
  | bad
  | frame (b : β) (rest : List α)

/-- A way to write frames one after the other and to tell where each ends. -/
structure Framing (α β : Type*) where
  encode : β → List α
  head : List α → Head α β
  encode_ne_nil : ∀ b, encode b ≠ []
  head_nil : head [] = .more
  head_encode : ∀ b r, head (encode b ++ r) = .frame b r
  of_frame : ∀ {l b r}, head l = .frame b r → l = encode b ++ r
  bad_append : ∀ {l}, head l = .bad → ∀ c, head (l ++ c) = .bad

/-- What a parse took off a stream, what it left, and whether it met what no frame begins with. -/
@[ext] structure Parsed (α β : Type*) where
  frames : List β
  rest : List α
  bad : Bool

variable {α β : Type*} (F : Framing α β)

namespace Framing

/-- Several frames, one after the other. -/
def encodeAll (bs : List β) : List α := bs.flatMap F.encode

theorem length_rest_lt {l r : List α} {b : β} (h : F.head l = .frame b r) :
    r.length < l.length := by
  have hpos : 0 < (F.encode b).length := List.length_pos_iff.mpr (F.encode_ne_nil b)
  rw [F.of_frame h, List.length_append]
  omega

/-- Frames off the head of the stream, while there is one. -/
def parse (l : List α) : Parsed α β :=
  match h : F.head l with
  | .more => ⟨[], l, false⟩
  | .bad => ⟨[], l, true⟩
  | .frame b r =>
    have := F.length_rest_lt h
    let p := parse r
    ⟨b :: p.frames, p.rest, p.bad⟩
termination_by l.length

variable {F}

theorem parse_of_more {l : List α} (h : F.head l = .more) : F.parse l = ⟨[], l, false⟩ := by
  rw [parse]
  split <;> simp_all

theorem parse_of_bad {l : List α} (h : F.head l = .bad) : F.parse l = ⟨[], l, true⟩ := by
  rw [parse]
  split <;> simp_all

theorem parse_of_frame {l r : List α} {b : β} (h : F.head l = .frame b r) :
    F.parse l = ⟨b :: (F.parse r).frames, (F.parse r).rest, (F.parse r).bad⟩ := by
  rw [parse]
  split
  · rename_i h'
    rw [h] at h'
    cases h'
  · rename_i h'
    rw [h] at h'
    cases h'
  · rename_i h'
    rw [h] at h'
    cases h'
    rfl

theorem frame_append {l r : List α} {b : β} (h : F.head l = .frame b r) (c : List α) :
    F.head (l ++ c) = .frame b (r ++ c) := by
  rw [F.of_frame h, List.append_assoc, F.head_encode]

@[simp] theorem parse_nil : F.parse [] = ⟨[], [], false⟩ := parse_of_more F.head_nil

/-- Induction along a parse: nothing to take, something no frame begins with, or a frame first. -/
theorem parse_induction {P : List α → Prop} (more : ∀ l, F.head l = .more → P l)
    (bad : ∀ l, F.head l = .bad → P l)
    (frame : ∀ l b r, F.head l = .frame b r → P r → P l) (l : List α) : P l := by
  induction hn : l.length using Nat.strongRecOn generalizing l with
  | _ n ih =>
      cases h : F.head l with
      | more => exact more l h
      | bad => exact bad l h
      | frame b r => exact frame l b r h (ih _ (hn ▸ F.length_rest_lt h) r rfl)

/-- What a parse took, written out, and what it left make up the stream. -/
theorem parse_sound (l : List α) : F.encodeAll (F.parse l).frames ++ (F.parse l).rest = l := by
  induction l using parse_induction (F := F) with
  | more l h => rw [parse_of_more h]; rfl
  | bad l h => rw [parse_of_bad h]; rfl
  | frame l b r h ih =>
      rw [parse_of_frame h]
      simp only [encodeAll, List.flatMap_cons, List.append_assoc] at ih ⊢
      rw [ih, ← F.of_frame h]

/-- A parse that met nothing bad stops where more is needed. -/
theorem head_rest {l : List α} (h : (F.parse l).bad = false) :
    F.head (F.parse l).rest = .more := by
  induction l using parse_induction (F := F) with
  | more l h' => rw [parse_of_more h']; exact h'
  | bad l h' => rw [parse_of_bad h'] at h; cases h
  | frame l b r h' ih =>
      rw [parse_of_frame h'] at h ⊢
      exact ih h

/-- A parse is bad exactly when what it stops at is. -/
theorem bad_iff_head_rest {l : List α} :
    (F.parse l).bad = true ↔ F.head (F.parse l).rest = .bad := by
  induction l using parse_induction (F := F) with
  | more l h =>
      rw [parse_of_more h]
      simp only [h, Bool.false_eq_true, reduceCtorEq]
  | bad l h =>
      rw [parse_of_bad h]
      simp only [h]
  | frame l b r h ih =>
      rw [parse_of_frame h]
      exact ih

/-- **Arrival does not matter.**  When the first part is not bad, the parse of the whole goes on
from what the parse of the first part left. -/
theorem parse_append {l : List α} (h : (F.parse l).bad = false) (c : List α) :
    F.parse (l ++ c) =
      ⟨(F.parse l).frames ++ (F.parse ((F.parse l).rest ++ c)).frames,
        (F.parse ((F.parse l).rest ++ c)).rest, (F.parse ((F.parse l).rest ++ c)).bad⟩ := by
  induction l using parse_induction (F := F) with
  | more l h' => rw [parse_of_more h']; rfl
  | bad l h' => rw [parse_of_bad h'] at h; cases h
  | frame l b r h' ih =>
      rw [parse_of_frame h'] at h ⊢
      rw [parse_of_frame (frame_append h' c), ih h]
      rfl

/-- What is bad stays bad, whatever follows. -/
theorem parse_append_of_bad {l : List α} (h : (F.parse l).bad = true) (c : List α) :
    F.parse (l ++ c) = ⟨(F.parse l).frames, (F.parse l).rest ++ c, true⟩ := by
  induction l using parse_induction (F := F) with
  | more l h' => rw [parse_of_more h'] at h; cases h
  | bad l h' => rw [parse_of_bad h', parse_of_bad (F.bad_append h' c)]
  | frame l b r h' ih =>
      rw [parse_of_frame h'] at h ⊢
      rw [parse_of_frame (frame_append h' c), ih h]

/-- More of the stream, more frames. -/
theorem frames_prefix {l l' : List α} (h : l <+: l') :
    (F.parse l).frames <+: (F.parse l').frames := by
  obtain ⟨c, rfl⟩ := h
  cases hbad : (F.parse l).bad with
  | true => rw [parse_append_of_bad hbad]
  | false =>
      rw [parse_append hbad]
      exact List.prefix_append _ _

/-- Written frames are read back. -/
theorem parse_encodeAll (bs : List β) (c : List α) :
    F.parse (F.encodeAll bs ++ c) =
      ⟨bs ++ (F.parse c).frames, (F.parse c).rest, (F.parse c).bad⟩ := by
  induction bs with
  | nil => rfl
  | cons b bs ih =>
      have h : F.encodeAll (b :: bs) ++ c = F.encode b ++ (F.encodeAll bs ++ c) := by
        simp only [encodeAll, List.flatMap_cons, List.append_assoc]
      rw [h, parse_of_frame (F.head_encode b _), ih]
      rfl

/-- A parse takes all there is to take: frames the stream begins with are the first it takes. -/
theorem prefix_frames {bs : List β} {l : List α} (h : F.encodeAll bs <+: l) :
    bs <+: (F.parse l).frames := by
  obtain ⟨c, rfl⟩ := h
  rw [parse_encodeAll]
  exact List.prefix_append _ _

/-- Every part of a written stream parses to the first frames of it, and nothing bad. -/
theorem parse_prefix_encodeAll {bs : List β} {l : List α} (h : l <+: F.encodeAll bs) :
    (F.parse l).bad = false ∧ (F.parse l).frames <+: bs := by
  obtain ⟨c, hc⟩ := h
  have hall := parse_encodeAll (F := F) bs []
  rw [List.append_nil, ← hc, parse_nil, List.append_nil] at hall
  have hbad : (F.parse l).bad = false := by
    by_contra hn
    rw [parse_append_of_bad (by simpa using hn)] at hall
    cases (Parsed.mk.inj hall).2.2
  refine ⟨hbad, (F.parse ((F.parse l).rest ++ c)).frames, ?_⟩
  rw [parse_append hbad] at hall
  exact (Parsed.mk.inj hall).1

end Framing

/-- What is left of `n` cells once the frames they cover whole are taken off, the frames having
these lengths. -/
def leftover : List Nat → Nat → Nat
  | [], n      => n
  | k :: ks, n => if k ≤ n then leftover ks (n - k) else n

namespace Framing
variable {F}

/-- What the parse of a part of a written stream leaves is settled by the lengths. -/
theorem length_rest_of_prefix {bs : List β} {l : List α} (h : l <+: F.encodeAll bs) :
    (F.parse l).rest.length = leftover (bs.map fun b => (F.encode b).length) l.length := by
  induction bs generalizing l with
  | nil =>
      obtain rfl : l = [] := List.prefix_nil.mp h
      rw [parse_nil]
      rfl
  | cons b bs ih =>
      have hcons : F.encodeAll (b :: bs) = F.encode b ++ F.encodeAll bs := rfl
      rw [hcons] at h
      simp only [List.map_cons, leftover]
      split
      · rename_i hle
        -- the first frame is there whole
        obtain ⟨l', rfl⟩ := List.prefix_of_prefix_length_le (List.prefix_append _ _) h hle
        have hl' : l' <+: F.encodeAll bs := (List.prefix_append_right_inj _).mp h
        rw [parse_of_frame (F.head_encode b l'), List.length_append, Nat.add_sub_cancel_left]
        exact ih hl'
      · rename_i hlt
        obtain ⟨hbad, hpre⟩ : (F.parse l).bad = false ∧ (F.parse l).frames <+: b :: bs :=
          parse_prefix_encodeAll h
        have hsound := F.parse_sound l
        cases hfs : (F.parse l).frames with
        | nil => rw [hfs] at hsound; exact congrArg List.length hsound
        | cons b' fs =>
            -- a frame taken off would be the first one, which is not there
            rw [hfs] at hpre hsound
            obtain ⟨rfl, -⟩ := List.cons_prefix_cons.mp hpre
            have hlen := congrArg List.length hsound
            simp only [encodeAll, List.flatMap_cons, List.length_append] at hlen
            omega

end Framing

end Holdem.Support
