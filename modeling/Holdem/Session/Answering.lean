import Holdem.Session.Lifecycle
import Holdem.Session.Whole

/-!
# Session — Answering

What a connection is for.  Its handlers answer a frame with calls of `packSend` (`Answering`); seen
from outside, the connection is a function from the frames of the stream it receives to the frames
of the stream it sends (`answersOf`).

`Answers` says that the callbacks come to that: the frames received so far were answered in order,
what was packed are the answers, what libevent took is a part of them from the front, and as long as
the session is not released the rest of both streams stands in the two buffers.  A step keeps it as
long as there is room for the chunk and for the answers (`TurnRoom`).
-/

namespace Holdem
open Support

variable {T W : Type*}

/-- What the handlers give for a frame: their calls of `packSend`, their own state and the state
they share with others; `none` where something undefined stops them. -/
abbrev Answering (T W : Type*) :=
  MsgHeader → List UInt8 → T → W → Option (List SendAct × T × W)

/-- The handlers of a session, as they act on its sending side. -/
def answering (o : HostOrder) (ans : Answering T W) : Handlers (Option (T × W)) :=
  fun header data s =>
    match s.2 with
    | none   => s
    | some p =>
      match ans header data p.1 p.2 with
      | none   => (s.1, none)
      | some r =>
        match run (sendStep o) s.1 r.1 with
        | none     => (s.1, none)
        | some out => (out, some r.2)

/-- The answers to the frames, in order. -/
def answersOf {cmds : CmdRange} (ans : Answering T W) :
    List (Frame cmds) → T → W → Option (List SendAct × T × W)
  | [], t, w      => some ([], t, w)
  | f :: fs, t, w => do
    let r ← ans f.header f.body t w
    let q ← answersOf ans fs r.2.1 r.2.2
    some (r.1 ++ q.1, q.2)

/-- The frame that a call packs. -/
def SendAct.frame : SendAct → List UInt8
  | .packSend uid cmd data => packedFrame uid cmd data
  | .sendData _            => []

/-- The stream that the calls pack. -/
def framesOf (acts : List SendAct) : List UInt8 := acts.flatMap SendAct.frame

/-- The frame of the action fits. -/
def ActFits (out : Outbound) (a : SendAct) : Prop := out.buffer.offsets.Fits capacity a.lengths

/-! ### The sending side -/

variable {o : HostOrder}

/-- Every call is on record, whether or not its frame was stored. -/
theorem packed_of_sendStep {out out' : Outbound} {a : SendAct}
    (h : sendStep o out a = some out') : out'.packed = out.packed ++ a.frame := by
  cases a with
  | packSend uid cmd data =>
      simp only [sendStep, Option.bind_eq_bind, Option.bind_eq_some_iff] at h
      obtain ⟨_, -, hout⟩ := h
      cases hout
      rfl
  | sendData written =>
      cases h
      rw [SendAct.frame, List.append_nil, sendData]
      split <;> rfl

theorem packed_of_run {out out' : Outbound} {acts : List SendAct}
    (h : run (sendStep o) out acts = some out') : out'.packed = out.packed ++ framesOf acts := by
  induction acts generalizing out with
  | nil =>
      cases h
      exact (List.append_nil _).symm
  | cons a acts ih =>
      obtain ⟨out₁, hstep, h⟩ := run_cons_eq_some h
      rw [ih h, packed_of_sendStep hstep, List.append_assoc]
      rfl

/-- A sending side in order: open, with the frames packed either taken or live. -/
structure Outbound.Ready (out : Outbound) : Prop where
  isOpen : out.Open
  sending : Sending out

/-- With the frames fitting, the sending side stays in order. -/
theorem ready_of_run {out out' : Outbound} {acts : List SendAct} (h : out.Ready)
    (hfit : Guarded (sendStep o) ActFits out acts) (hrun : run (sendStep o) out acts = some out') :
    out'.Ready := by
  refine guarded_invariant (P := Outbound.Ready) ?_ h hfit hrun
  rintro out a out' ⟨hopen, hsending⟩ hfit hstep
  refine ⟨sendStep_open hopen hstep, ?_⟩
  have hsum : out.accepted ++ out.buffer.live = out.packed := hsending
  cases a with
  | packSend uid cmd data =>
      obtain ⟨h₁, h₂, htotal⟩ := hfit
      rw [← hopen.cap] at h₁ h₂ htotal
      obtain ⟨b, hb, hlive, -, -⟩ := packSend_of_room o uid cmd h₁ h₂ htotal
      simp only [sendStep, hb, Option.bind_eq_bind, Option.bind_some, Option.some.injEq] at hstep
      subst hstep
      rw [Sending, hlive, ← hsum, List.append_assoc]
  | sendData written =>
      cases hstep
      cases written with
      | false => rwa [sendData_false]
      | true =>
          obtain ⟨b, hb, hlive, -, -⟩ := sendData_true hopen.event
          rw [hb]
          simp only [Sending, hlive, List.append_nil]
          exact hsum

/-- A frame that ends below the capacity fits, and the tail then stands at its end. -/
theorem fits_of_le {out out' : Outbound} {a : SendAct} (hopen : out.Open)
    (hle : out.buffer.mTail + a.frame.length ≤ capacity) (hstep : sendStep o out a = some out') :
    ActFits out a ∧ out'.buffer.mTail = out.buffer.mTail + a.frame.length := by
  cases a with
  | packSend uid cmd data =>
      rw [SendAct.frame, length_packedFrame] at hle ⊢
      have h₁ : out.buffer.mTail + MsgHeader.size ≤ capacity := by omega
      have h₂ : out.buffer.mTail + MsgHeader.size + data.length ≤ capacity := by omega
      have hfit : ActFits out (.packSend uid cmd data) := by
        simp only [ActFits, SendAct.lengths, Offsets.Fits, Offsets.push, Offsets.Room,
          SessionBuffer.offsets, h₁, if_true, h₂, true_or, true_and]
        omega
      refine ⟨hfit, ?_⟩
      obtain ⟨hroom₁, hroom₂, htotal⟩ := hfit
      rw [← hopen.cap] at hroom₁ hroom₂ htotal
      obtain ⟨b, hb, -, hoff, -⟩ := packSend_of_room o uid cmd hroom₁ hroom₂ htotal
      simp only [sendStep, hb, Option.bind_eq_bind, Option.bind_some, Option.some.injEq] at hstep
      subst hstep
      have htail := congrArg Offsets.tail hoff
      simp only [hopen.cap, Offsets.push, SessionBuffer.offsets, if_pos h₁, if_pos h₂] at htail
      rw [htail, Nat.add_assoc]
  | sendData written =>
      cases hstep
      refine ⟨trivial, ?_⟩
      have hoff := congrArg Offsets.tail (sendData_open hopen written).2
      rw [SendAct.frame, List.length_nil, Nat.add_zero]
      refine hoff.trans ?_
      rw [Offsets.sendData]
      split <;> rfl

/-- As long as the frames packed are no longer than the buffer, they fit. -/
theorem fits_of_packed_le {out out' : Outbound} {acts : List SendAct} (hopen : out.Open)
    (htail : out.buffer.mTail ≤ out.packed.length)
    (hrun : run (sendStep o) out acts = some out') (hle : out'.packed.length ≤ capacity) :
    Guarded (sendStep o) ActFits out acts ∧ out'.buffer.mTail ≤ out'.packed.length := by
  induction acts generalizing out with
  | nil =>
      cases hrun
      exact ⟨trivial, htail⟩
  | cons a acts ih =>
      obtain ⟨out₁, hstep, hrun⟩ := run_cons_eq_some hrun
      have hpacked := congrArg List.length (packed_of_sendStep hstep)
      have hmore := congrArg List.length (packed_of_run hrun)
      rw [List.length_append] at hpacked hmore
      obtain ⟨hfit, htail₁⟩ := fits_of_le hopen (by omega) hstep
      rw [guarded_cons_of_some hstep]
      obtain ⟨hfits, htail'⟩ := ih (sendStep_open hopen hstep) (by omega) hrun
      exact ⟨⟨hfit, hfits⟩, htail'⟩

/-! ### The handlers -/

variable {cmds : CmdRange} {ans : Answering T W}

/-- What was undefined stays so. -/
theorem processAll_answering_none (fs : List (Frame cmds)) (out : Outbound) (es : List Event) :
    (processAll (recorded (answering o ans)) fs ((out, none), es)).1 = (out, none) := by
  induction fs generalizing es with
  | nil => rfl
  | cons f fs ih => exact ih (es ++ [.handle .process])

/-- Where the handlers come through, they gave the answers, and the sending side took them. -/
theorem processAll_answering {fs : List (Frame cmds)} {out out' : Outbound} {t t' : T} {w w' : W}
    {es : List Event} (h : (processAll (recorded (answering o ans)) fs
      ((out, some (t, w)), es)).1 = (out', some (t', w'))) :
    ∃ acts, answersOf ans fs t w = some (acts, t', w') ∧
      run (sendStep o) out acts = some out' := by
  induction fs generalizing out t w es with
  | nil =>
      cases h
      exact ⟨[], rfl, rfl⟩
  | cons f fs ih =>
      have hcons : processAll (recorded (answering o ans)) (f :: fs) ((out, some (t, w)), es) =
          processAll (recorded (answering o ans)) fs
            (answering o ans f.header f.body (out, some (t, w)), es ++ [.handle .process]) := rfl
      rw [hcons] at h
      cases hans : ans f.header f.body t w with
      | none =>
          simp only [answering, hans, processAll_answering_none] at h
          cases h
      | some r =>
          obtain ⟨acts, t₁, w₁⟩ := r
          cases hrun : run (sendStep o) out acts with
          | none =>
              simp only [answering, hans, hrun, processAll_answering_none] at h
              cases h
          | some out₁ =>
              simp only [answering, hans, hrun] at h
              obtain ⟨acts', hanswers, hrun'⟩ := ih h
              refine ⟨acts ++ acts', ?_, ?_⟩
              · simp only [answersOf, hans, hanswers, Option.bind_eq_bind, Option.bind_some]
              · rw [run_append, hrun, Option.bind_some, hrun']

/-- What every answer keeps, all answers keep. -/
theorem answersOf_keeps {L : List (Frame cmds) → List SendAct → T → W → Prop}
    (hkeep : ∀ fs acts t w f acts' t' w', L fs acts t w →
      ans f.header f.body t w = some (acts', t', w') → L (fs ++ [f]) (acts ++ acts') t' w')
    {fs gs : List (Frame cmds)} {acts acts' : List SendAct} {t t' : T} {w w' : W}
    (h : L fs acts t w) (hans : answersOf ans gs t w = some (acts', t', w')) :
    L (fs ++ gs) (acts ++ acts') t' w' := by
  induction gs generalizing fs acts t w acts' with
  | nil =>
      cases hans
      rwa [List.append_nil, List.append_nil]
  | cons g gs ih =>
      simp only [answersOf, Option.bind_eq_bind, Option.bind_eq_some_iff] at hans
      obtain ⟨⟨as, t₁, w₁⟩, hg, ⟨bs, p⟩, hgs, hans⟩ := hans
      cases hans
      have hrest := ih (hkeep _ _ _ _ _ _ _ _ h hg) hgs
      simpa only [List.append_assoc, List.singleton_append] using hrest

/-- The answers to more frames go on where those to the first stopped. -/
theorem answersOf_append (fs gs : List (Frame cmds)) (t : T) (w : W) :
    answersOf ans (fs ++ gs) t w = (answersOf ans fs t w).bind fun r =>
      (answersOf ans gs r.2.1 r.2.2).map fun q => (r.1 ++ q.1, q.2) := by
  induction fs generalizing t w with
  | nil =>
      rw [List.nil_append, answersOf, Option.bind_some]
      exact Option.map_id.symm ▸ rfl
  | cons f fs ih =>
      simp only [List.cons_append, answersOf, Option.bind_eq_bind]
      cases ans f.header f.body t w with
      | none => rfl
      | some r =>
          simp only [Option.bind_some, ih]
          cases answersOf ans fs r.2.1 r.2.2 with
          | none => rfl
          | some q =>
              simp only [Option.bind_some]
              cases answersOf ans gs q.2.1 q.2.2 with
              | none => rfl
              | some p => simp only [Option.map_some, Option.bind_some, List.append_assoc]

end Holdem
