import Holdem.Session.Answering

/-!
# Session — Connection

A connection with its handlers, from one callback to the next.  `callbackWith` is `callback` with an
`Answering` for the handlers.  Nothing follows where a handler runs into something undefined, nor
where the read loop goes on with a session it has released, as it does behind a malformed header.

`Answers` says what the connection comes to.  The frames received so far were answered in order, and
nothing else was packed; what libevent took are the answers from the front; and as long as the
session is not released, the rest of the two streams stands in the two buffers.  `Conversing.step`
is the step lemma, under the guard that the chunk and the answers have room (`TurnRoom`), and
`Within.turnRoom` says that there is room as long as neither stream has outgrown its buffer.
-/

namespace Holdem
open Support

variable {T W : Type*}

/-- What a callback brings from the peer. -/
def Callback.bytes : Callback → List UInt8
  | .turn chunk _ => chunk
  | _             => []

/-- What the callbacks bring from the peer. -/
def received (cs : List Callback) : List UInt8 := cs.flatMap Callback.bytes

/-- The session, its handlers in another state. -/
def Session.withHandlers {T' : Type*} (st : Session T) (t : T') : Session T' :=
  ⟨st.readBuffer, st.out, t, st.reading, st.hung, st.released, st.record⟩

/-- A callback, with handlers that give these answers.  Nothing follows a handler that runs into
something undefined, or a callback that goes on with a session it has released. -/
def callbackWith (o : HostOrder) (cmds : CmdRange) (ans : Answering T W) (w : W) (st : Session T)
    (c : Callback) : Option (Session T × W) := do
  let st ← callback o cmds (answering o ans) (st.withHandlers (some (st.handlers, w))) c
  if Safe st.record then
    let p ← st.handlers
    some (st.withHandlers p.1, p.2)
  else none

/-- The guard of a callback: the chunk has room, and so have the answers to what it completes. -/
def TurnRoom (o : HostOrder) (cmds : CmdRange) (ans : Answering T W) (w : W) (st : Session T) :
    Callback → Prop
  | .turn chunk _ => st.released = false →
    st.readBuffer.offsets.Room capacity chunk.length ∧
    st.readBuffer.bufSize + chunk.length ≤ capacity ∧
    ∀ r, answersOf ans ((framing cmds).parse (st.readBuffer.live ++ chunk)).frames
        st.handlers w = some r →
      Guarded (sendStep o) ActFits st.out r.1
  | _ => True

/-- What a connection that received `rx` comes to.  `L` is what the answers keep. -/
structure Session.Answers {cmds : CmdRange} (L : List (Frame cmds) → List SendAct → T → Prop)
    (rx : List UInt8) (st : Session T) : Prop where
  /-- Every frame received was answered, in order, and nothing else was packed. -/
  answered : ∃ acts, L ((framing cmds).parse rx).frames acts st.handlers ∧
    st.out.packed = framesOf acts
  /-- What libevent took is what was packed, from the front. -/
  sent : st.out.accepted <+: st.out.packed
  /-- As long as the session is not released, what is left of both streams is in the buffers. -/
  kept : st.released = false → ((framing cmds).parse rx).bad = false ∧
    st.out.accepted ++ st.out.buffer.live = st.out.packed ∧
    st.readBuffer.live = ((framing cmds).parse rx).rest

/-! ### One callback -/

/-- Neither of the buffers is touched, and no handler called. -/
structure Session.Same (st st' : Session T) : Prop where
  readBuffer : st'.readBuffer = st.readBuffer
  out : st'.out = st.out
  handlers : st'.handlers = st.handlers

/-- What a callback does. -/
inductive Served (o : HostOrder) (cmds : CmdRange) (ans : Answering T W) (w : W) (st : Session T) :
    Callback → Session T → W → Prop
  | quiet {c : Callback} {st' : Session T} (hsame : st.Same st') (hfree : st.released = false)
      (hfree' : st'.released = false) (hbytes : c.bytes = []) : Served o cmds ans w st c st' w
  | event {c : Callback} {st' : Session T} (hsame : st.Same st') (hfree : st.released = false)
      (hrel : st'.released = true) (hread : st'.reading = false) (hbytes : c.bytes = []) :
      Served o cmds ans w st c st' w
  | freed {c : Callback} {st' : Session T} (hsame : st.Same st') (hrel : st.released = true)
      (hread : st.reading = true) (hrel' : st'.released = true) : Served o cmds ans w st c st' w
  | hung {chunk : List UInt8} {written : Bool} {st' : Session T} (hsame : st.Same st')
      (hfree : st.released = false) (happ : st.readBuffer.append chunk = none) :
      Served o cmds ans w st (.turn chunk written) st' w
  | answered {chunk : List UInt8} {written : Bool} {st' : Session T} {w' : W} {r : Bool}
      {b : SessionBuffer} {acts : List SendAct} {out : Outbound} (hfree : st.released = false)
      (happ : st.readBuffer.append chunk = some (r, b))
      (hans : answersOf ans ((framing cmds).parse b.live).frames st.handlers w =
        some (acts, st'.handlers, w'))
      (hrun : run (sendStep o) st.out acts = some out)
      (hbad : ((framing cmds).parse b.live).bad = false)
      (hlive : st'.readBuffer.live = ((framing cmds).parse b.live).rest)
      (htail : st'.readBuffer.mTail = b.mTail) (hcap : st'.readBuffer.mCapacity = b.mCapacity)
      (hout : st'.out = sendData out written) (hfree' : st'.released = false) :
      Served o cmds ans w st (.turn chunk written) st' w'

variable {o : HostOrder} {cmds : CmdRange} {ans : Answering T W} {st st' : Session T} {w w' : W}
  {c : Callback}

/-- A session that is used behind its release. -/
theorem not_safe_behind_release (l : List Event) (e : Event) : ¬ Safe (l ++ [.release, e]) := by
  intro h
  induction l with
  | nil => cases h
  | cons x l ih =>
      cases x with
      | release => exact absurd (List.append_eq_nil_iff.mp h).2 (List.cons_ne_nil _ _)
      | handle op => exact ih h
      | bufferevent op => exact ih h

/-- A turn of the read loop, by what `append` and the parse of the live bytes give.  A malformed
header has the session released and then used. -/
theorem served_readTurn {chunk : List UInt8} {written : Bool} {s : Session (Option (T × W))}
    (hbuf : s.readBuffer = st.readBuffer) (hout : s.out = st.out)
    (hhandlers : s.handlers = some (st.handlers, w)) (hfree : s.released = false)
    (hfree' : st.released = false) {p : T × W}
    (hsafe : Safe (readTurn o cmds (answering o ans) s chunk written).record)
    (hp : (readTurn o cmds (answering o ans) s chunk written).handlers = some p) :
    Served o cmds ans w st (.turn chunk written)
      ((readTurn o cmds (answering o ans) s chunk written).withHandlers p.1) p.2 := by
  cases happ : st.readBuffer.append chunk with
  | none =>
      simp only [readTurn, hbuf, happ, Session.note, hhandlers, Option.some.injEq] at hp ⊢
      subst hp
      exact .hung ⟨rfl, hout, rfl⟩ hfree' happ
  | some q =>
      obtain ⟨r, b⟩ := q
      obtain ⟨b', hdis, hlive, htail, hcap⟩ : ∃ b', dispatch o cmds (recorded (answering o ans)) b
          ((st.out, some (st.handlers, w)), []) = _ ∧ _ := dispatch_eq b _
      have hanswers : ∀ out t' w', (processAll (recorded (answering o ans))
          ((framing cmds).parse b.live).frames ((st.out, some (st.handlers, w)), [])).1 =
            (out, some (t', w')) → ∃ acts, _ ∧ _ := fun _ _ _ => processAll_answering
      revert hdis hanswers
      generalize processAll (recorded (answering o ans)) ((framing cmds).parse b.live).frames
        ((st.out, some (st.handlers, w)), []) = q
      obtain ⟨⟨out, x⟩, es⟩ := q
      intro hdis hanswers
      cases hbad : ((framing cmds).parse b.live).bad with
      | false =>
          simp only [readTurn, hbuf, hout, hhandlers, happ, hdis, hbad, Session.note,
            Bool.false_eq_true, if_false] at hp ⊢
          subst hp
          obtain ⟨acts, hans, hrun⟩ := hanswers out p.1 p.2 rfl
          exact .answered hfree' happ hans hrun hbad hlive htail hcap rfl hfree
      | true =>
          have hrecord : ∃ l, (readTurn o cmds (answering o ans) s chunk written).record =
              l ++ [.release, .handle .sendData] := by
            simp only [readTurn, hbuf, hout, hhandlers, happ, hdis, hbad, shutdown, Session.note,
              if_true, List.append_assoc, List.cons_append, List.nil_append]
            refine ⟨s.record ++ ([.handle .append, .handle .dispatch] ++
              (es ++ [.handle .shutdown])), ?_⟩
            simp only [List.append_assoc, List.cons_append, List.nil_append]
          obtain ⟨l, hl⟩ := hrecord
          exact absurd (hl ▸ hsafe) (not_safe_behind_release l _)

theorem callbackWith_cases (h : callbackWith o cmds ans w st c = some (st', w')) :
    Served o cmds ans w st c st' w' := by
  simp only [callbackWith, Option.bind_eq_bind, Option.bind_eq_some_iff,
    Option.ite_none_right_eq_some] at h
  obtain ⟨s, hs, hsafe, p, hp, h⟩ := h
  cases h
  cases c with
  | read | write =>
      simp only [callback, Option.ite_none_right_eq_some, Session.idle_iff] at hs
      obtain ⟨⟨-, -, hfree⟩, hs⟩ := hs
      cases hs
      cases hp
      exact .quiet ⟨rfl, rfl, rfl⟩ hfree hfree rfl
  | event =>
      simp only [callback, Option.ite_none_right_eq_some, Session.idle_iff] at hs
      obtain ⟨⟨hread, -, hfree⟩, hs⟩ := hs
      cases hs
      cases hp
      exact .event ⟨rfl, rfl, rfl⟩ hfree rfl hread rfl
  | turn chunk written =>
      simp only [callback, Option.ite_none_right_eq_some, Bool.and_eq_true] at hs
      obtain ⟨⟨hread, -⟩, hs⟩ := hs
      cases hrel : st.released with
      | true =>
          have hrel' : (st.withHandlers (some (st.handlers, w))).released = true := hrel
          rw [if_pos hrel'] at hs
          cases hs
          cases hp
          exact .freed ⟨rfl, rfl, rfl⟩ hrel hread hrel
      | false =>
          have hrel' : (st.withHandlers (some (st.handlers, w))).released = false := hrel
          rw [hrel', if_neg Bool.false_ne_true] at hs
          by_cases hchunk : chunk = []
          · rw [if_pos hchunk] at hs
            cases hs
            cases hp
            exact .quiet ⟨rfl, rfl, rfl⟩ hrel hrel hchunk
          · rw [if_neg hchunk] at hs
            cases hs
            exact served_readTurn rfl rfl rfl hrel hrel hsafe hp

/-! ### What a callback keeps -/

/-- `Answers`, with what the next callback needs. -/
structure Session.Conversing {cmds : CmdRange} (L : List (Frame cmds) → List SendAct → T → Prop)
    (rx : List UInt8) (st : Session T) : Prop where
  answers : st.Answers L rx
  cap : st.released = false → st.readBuffer.mCapacity = capacity
  isOpen : st.released = false → st.out.Open
  gone : st.released = true → st.reading = false

theorem framesOf_append (as bs : List SendAct) :
    framesOf (as ++ bs) = framesOf as ++ framesOf bs := List.flatMap_append

theorem packed_of_sendData (out : Outbound) (written : Bool) :
    (sendData out written).packed = out.packed := by
  have hpacked : (sendData out written).packed = out.packed ++ (SendAct.sendData written).frame :=
    packed_of_sendStep (o := .little) rfl
  rwa [SendAct.frame, List.append_nil] at hpacked

theorem ready_of_sendData {out : Outbound} (h : out.Ready) (written : Bool) :
    (sendData out written).Ready := by
  have hfits : Guarded (sendStep .little) ActFits out [.sendData written] :=
    ⟨trivial, fun _ _ => trivial⟩
  exact ready_of_run h hfits rfl

namespace Session

variable {L : List (Frame cmds) → List SendAct → T → W → Prop} {rx : List UInt8}

theorem Answers.start {L : List (Frame cmds) → List SendAct → T → Prop} {t : T} (h : L [] [] t)
    (mem mem' : Memory UInt8) : (Session.start mem mem' t).Answers L [] where
  answered := ⟨[], by rwa [Framing.parse_nil], rfl⟩
  sent := List.prefix_refl []
  kept := fun _ => by
    rw [Framing.parse_nil]
    exact ⟨rfl, rfl, rfl⟩

theorem Conversing.start {L : List (Frame cmds) → List SendAct → T → Prop} {t : T} (h : L [] [] t)
    (mem mem' : Memory UInt8) : (Session.start mem mem' t).Conversing L [] where
  answers := Answers.start h mem mem'
  cap := fun _ => rfl
  isOpen := fun _ => start_open mem'
  gone := fun h => by cases h

/-- Where nothing is called and nothing new is read, nothing changes. -/
theorem Answers.same {L : List (Frame cmds) → List SendAct → T → Prop} (h : st.Answers L rx)
    (hsame : st.Same st') (hfree : st'.released = false → st.released = false) :
    st'.Answers L rx where
  answered := by
    rw [hsame.handlers, hsame.out]
    exact h.answered
  sent := by
    rw [hsame.out]
    exact h.sent
  kept := fun hfree' => by
    rw [hsame.readBuffer, hsame.out]
    exact h.kept (hfree hfree')

/-- What a chunk comes to, with room for it and for the answers: the parse goes on, and the sending
side is in order with the answers behind those before. -/
theorem Conversing.turn {chunk : List UInt8} {written r : Bool} {b : SessionBuffer}
    {acts : List SendAct} {out : Outbound} {t' : T}
    (hkeep : ∀ fs acts t w f acts' t' w', L fs acts t w →
      ans f.header f.body t w = some (acts', t', w') → L (fs ++ [f]) (acts ++ acts') t' w')
    (h : st.Conversing (fun fs acts t => L fs acts t w) rx)
    (hroom : TurnRoom o cmds ans w st (.turn chunk written)) (hfree : st.released = false)
    (happ : st.readBuffer.append chunk = some (r, b))
    (hans : answersOf ans ((framing cmds).parse b.live).frames st.handlers w =
      some (acts, t', w'))
    (hrun : run (sendStep o) st.out acts = some out) :
    b.mCapacity = capacity ∧
      ((framing cmds).parse (rx ++ chunk)).rest = ((framing cmds).parse b.live).rest ∧
      ((framing cmds).parse (rx ++ chunk)).bad = ((framing cmds).parse b.live).bad ∧
      out.Ready ∧ ∃ acts, L ((framing cmds).parse (rx ++ chunk)).frames acts t' w' ∧
        out.packed = framesOf acts := by
  obtain ⟨hchunk, hlen, hacts⟩ := hroom hfree
  have hcapacity := h.cap hfree
  rw [← hcapacity] at hchunk hlen
  obtain ⟨b', hb', hlive, -, hcap⟩ := SessionBuffer.append_of_room hchunk hlen
  cases happ.symm.trans hb'
  obtain ⟨hgood, hsending, hrest⟩ := h.answers.kept hfree
  obtain ⟨acts₀, hL, hpacked⟩ := h.answers.answered
  rw [hlive] at hans
  have hready := ready_of_run ⟨h.isOpen hfree, hsending⟩ (hacts _ hans) hrun
  rw [hrest] at hans
  rw [hlive, hrest, Framing.parse_append hgood chunk]
  refine ⟨hcap.trans hcapacity, rfl, rfl, hready, acts₀ ++ acts, answersOf_keeps hkeep hL hans, ?_⟩
  rw [packed_of_run hrun, hpacked, framesOf_append]

/-- With room for the chunk and the answers, the connection goes on answering. -/
theorem Conversing.step
    (hkeep : ∀ fs acts t w f acts' t' w', L fs acts t w →
      ans f.header f.body t w = some (acts', t', w') → L (fs ++ [f]) (acts ++ acts') t' w')
    (h : st.Conversing (fun fs acts t => L fs acts t w) rx) (hroom : TurnRoom o cmds ans w st c)
    (hstep : callbackWith o cmds ans w st c = some (st', w')) :
    st'.Conversing (fun fs acts t => L fs acts t w') (rx ++ c.bytes) := by
  have hno : st'.released = true → st'.released ≠ false := fun hrel hf => by
    cases hrel.symm.trans hf
  cases callbackWith_cases hstep with
  | quiet hsame hfree hfree' hbytes =>
      rw [hbytes, List.append_nil]
      refine ⟨h.answers.same hsame fun _ => hfree, fun _ => ?_, fun _ => ?_,
        fun hrel => absurd hfree' (hno hrel)⟩
      · rw [hsame.readBuffer]
        exact h.cap hfree
      · rw [hsame.out]
        exact h.isOpen hfree
  | event hsame hfree hrel hread hbytes =>
      rw [hbytes, List.append_nil]
      exact ⟨h.answers.same hsame fun _ => hfree, fun hf => absurd hf (hno hrel),
        fun hf => absurd hf (hno hrel), fun _ => hread⟩
  | freed hsame hrel hread hrel' => cases hread.symm.trans (h.gone hrel)
  | @hung chunk written _ hsame hfree happ =>
      -- the chunk has room
      obtain ⟨hchunk, hlen, -⟩ := hroom hfree
      rw [← h.cap hfree] at hchunk hlen
      obtain ⟨b, hb, -⟩ := SessionBuffer.append_of_room hchunk hlen
      cases happ.symm.trans hb
  | @answered chunk written _ _ r b acts out hfree happ hans hrun hbad hlive htail hcap hout
      hfree' =>
      obtain ⟨hcapacity, hrest, hbad', hready, acts', hL, hpacked⟩ :=
        h.turn hkeep hroom hfree happ hans hrun
      have hsent := ready_of_sendData hready written
      rw [← hout] at hsent
      refine ⟨⟨⟨acts', hL, ?_⟩, ⟨_, hsent.sending⟩, fun _ => ⟨hbad'.trans hbad, hsent.sending,
        hlive.trans hrest.symm⟩⟩, fun _ => hcap.trans hcapacity, fun _ => hsent.isOpen,
        fun hrel => absurd hfree' (hno hrel)⟩
      rw [hout, packed_of_sendData, hpacked]

end Session

/-! ### Room by the totals -/

/-- What was packed stays on record. -/
theorem packed_of_callbackWith (h : callbackWith o cmds ans w st c = some (st', w')) :
    st.out.packed <+: st'.out.packed := by
  cases callbackWith_cases h with
  | quiet hsame | event hsame | freed hsame | hung hsame => rw [hsame.out]
  | answered hfree happ hans hrun hbad hlive htail hcap hout hfree' =>
      rw [hout, packed_of_sendData, packed_of_run hrun]
      exact List.prefix_append _ _

/-- A connection whose tails stand no further than its two streams are long. -/
structure Session.Within (cmds : CmdRange) (rx : List UInt8) (st : Session T) : Prop where
  conversing : st.Conversing (fun (_ : List (Frame cmds)) _ _ => True) rx
  tail : st.released = false → st.readBuffer.mTail ≤ rx.length
  outTail : st.released = false → st.out.buffer.mTail ≤ st.out.packed.length

namespace Session.Within

variable {rx : List UInt8}

theorem start (mem mem' : Memory UInt8) (t : T) : (Session.start mem mem' t).Within cmds [] where
  conversing := Conversing.start trivial mem mem'
  tail := fun _ => Nat.le_refl 0
  outTail := fun _ => Nat.le_refl 0

/-- A chunk is stored behind the tail. -/
theorem append (h : st.Within cmds rx) (hfree : st.released = false) {chunk : List UInt8}
    (hrx : (rx ++ chunk).length ≤ capacity) :
    (st.readBuffer.offsets.Room capacity chunk.length ∧
      st.readBuffer.bufSize + chunk.length ≤ capacity) ∧
      ∃ b, st.readBuffer.append chunk = some (true, b) ∧ b.live = st.readBuffer.live ++ chunk ∧
        b.mTail = st.readBuffer.mTail + chunk.length := by
  have htail := h.tail hfree
  have hcap := h.conversing.cap hfree
  rw [List.length_append] at hrx
  have hfit : st.readBuffer.mTail + chunk.length ≤ capacity := by omega
  refine ⟨⟨Or.inl hfit, by rw [SessionBuffer.bufSize]; omega⟩, ?_⟩
  rw [← hcap] at hfit
  exact ⟨_, SessionBuffer.append_of_fits hfit, SessionBuffer.live_store _ chunk hfit, rfl⟩

/-- What is packed in the end settles that the answers have room. -/
theorem turnRoom (h : st.Within cmds rx) (hrx : (rx ++ c.bytes).length ≤ capacity)
    (hpacked : st'.out.packed.length ≤ capacity)
    (hstep : callbackWith o cmds ans w st c = some (st', w')) : TurnRoom o cmds ans w st c := by
  cases c with
  | read | write | event => trivial
  | turn chunk written =>
      intro hfree
      obtain ⟨⟨hroom, hlen⟩, b, happ, hlive, -⟩ := h.append hfree hrx
      refine ⟨hroom, hlen, fun q hq => ?_⟩
      -- the frames of an empty chunk are none, those of another one were answered in this step
      have hnil : chunk = [] → Guarded (sendStep o) ActFits st.out q.1 := by
        rintro rfl
        obtain ⟨hgood, -, hrest⟩ := h.conversing.answers.kept hfree
        rw [List.append_nil, hrest, Framing.parse_of_more (Framing.head_rest hgood)] at hq
        cases hq
        trivial
      have hanswered : ∀ {b' r acts out t'}, st.readBuffer.append chunk = some (r, b') →
          answersOf ans ((framing cmds).parse b'.live).frames st.handlers w =
            some (acts, t', w') → run (sendStep o) st.out acts = some out →
          st'.out.packed = out.packed → Guarded (sendStep o) ActFits st.out q.1 := by
        intro b' r acts out t' happ' hans hrun hout
        cases happ.symm.trans happ'
        rw [hlive] at hans
        cases hq.symm.trans hans
        exact (fits_of_packed_le (h.conversing.isOpen hfree) (h.outTail hfree) hrun
          (hout ▸ hpacked)).1
      cases callbackWith_cases hstep with
      | quiet hsame hfree hfree' hbytes => exact hnil hbytes
      | event hsame hfree hrel hread hbytes => exact hnil hbytes
      | freed hsame hrel => cases hrel.symm.trans hfree
      | hung hsame hfree happ' => cases happ.symm.trans happ'
      | answered hfree happ' hans hrun hbad hlive' htail hcap hout hfree' =>
          exact hanswered happ' hans hrun (by rw [hout, packed_of_sendData])

/-- As long as neither stream is longer than its buffer, the tails do not run ahead of them. -/
theorem step (h : st.Within cmds rx) (hrx : (rx ++ c.bytes).length ≤ capacity)
    (hpacked : st'.out.packed.length ≤ capacity)
    (hstep : callbackWith o cmds ans w st c = some (st', w')) :
    st'.Within cmds (rx ++ c.bytes) := by
  have hroom := h.turnRoom hrx hpacked hstep
  have hmore : rx.length ≤ (rx ++ c.bytes).length := by
    rw [List.length_append]
    exact Nat.le_add_right _ _
  have hsame : st.Same st' → st.released = false →
      st'.readBuffer.mTail ≤ (rx ++ c.bytes).length ∧
        st'.out.buffer.mTail ≤ st'.out.packed.length := by
    rintro ⟨hbuf, hout, -⟩ hfree
    rw [hbuf, hout]
    exact ⟨(h.tail hfree).trans hmore, h.outTail hfree⟩
  suffices htails : st'.released = false → st'.readBuffer.mTail ≤ (rx ++ c.bytes).length ∧
      st'.out.buffer.mTail ≤ st'.out.packed.length from
    ⟨h.conversing.step (L := fun _ _ _ _ => True) (fun _ _ _ _ _ _ _ _ _ _ => trivial) hroom hstep,
      fun hfree => (htails hfree).1, fun hfree => (htails hfree).2⟩
  intro hfree'
  cases callbackWith_cases hstep with
  | quiet hs hfree => exact hsame hs hfree
  | event hs hfree hrel | freed hs hfree hread hrel => cases hrel.symm.trans hfree'
  | hung hs hfree => exact hsame hs hfree
  | @answered chunk written _ _ r b acts out hfree happ hans hrun hbad hlive htail hcap hout =>
      obtain ⟨-, b', happ', -, htail'⟩ := h.append hfree hrx
      cases happ.symm.trans happ'
      have hpacked' : out.packed.length ≤ capacity := by
        rwa [hout, packed_of_sendData] at hpacked
      have hopen := h.conversing.isOpen hfree
      have hfits := fits_of_packed_le hopen (h.outTail hfree) hrun hpacked'
      have hopen' : out.Open := run_invariant (fun _ _ _ => sendStep_open) hopen hrun
      have hoff := congrArg Offsets.tail (sendData_open hopen' written).2
      constructor
      · rw [htail, htail', List.length_append]
        exact Nat.add_le_add_right (h.tail hfree) _
      · rw [hout, packed_of_sendData]
        refine Nat.le_trans (Nat.le_of_eq (hoff.trans ?_)) hfits.2
        rw [Offsets.sendData]
        split <;> rfl

end Session.Within

end Holdem
