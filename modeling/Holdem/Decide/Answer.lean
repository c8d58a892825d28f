import Holdem.Decide.Choice
import Holdem.Session.Dispatch
import Holdem.Session.Outbound
import Holdem.Support.Runs

/-!
# Decide — Answer

What a session answers.  `process` gives a frame to the handler of its command, and a handler that
gets to its end calls `packSend` once.  The handlers of the node's registration and of a keep-alive
always do; `handleRobotDecide2` has several ways out before (`LeavesEarly`).

* `handleRsp_iff`: with ten entries or more, the handler gets to its end exactly when it does not
  leave early.
* `answers_of_dispatch`: every frame is handled once, in order, and answered at most once, with its
  uid and the command of its response.
-/

namespace Holdem.Decide
open Support

/-- The command words of `alg.pb.h`, all different where `process` tells them apart. -/
structure Commands where
  nodeRegiserReq : UInt32
  nodeRegiserRsp : UInt32
  keepaliveReq : UInt32
  keepaliveRsp : UInt32
  robotDecideReq : UInt32
  robotDecideRsp : UInt32
  register_ne_keepalive : nodeRegiserReq ≠ keepaliveReq
  register_ne_decide : nodeRegiserReq ≠ robotDecideReq
  keepalive_ne_decide : keepaliveReq ≠ robotDecideReq

namespace Commands

/-- The command words `dispatch` accepts. -/
def range (K : Commands) : CmdRange := ⟨K.nodeRegiserReq, K.robotDecideRsp⟩

/-- The commands that ask for a response. -/
def Asks (K : Commands) (cmd : UInt32) : Prop :=
  cmd = K.nodeRegiserReq ∨ cmd = K.keepaliveReq ∨ cmd = K.robotDecideReq

/-- The command of the response. -/
def rsp (K : Commands) (cmd : UInt32) : UInt32 :=
  if cmd = K.nodeRegiserReq then K.nodeRegiserRsp
  else if cmd = K.keepaliveReq then K.keepaliveRsp
  else K.robotDecideRsp

end Commands

/-- The messages that the handlers answer with. -/
inductive Rsp
  | nodeRegister (result : Int)
  | keepAlive (timestamp : Int)
  | robotAction (result uid odds bet_size : Int) (action : Nat)
  deriving DecidableEq, Repr

/-- A dealer with the clock, and the messages on the wire. -/
structure Host (W : Type) extends Dealer W where
  time : W → Int
  /-- `AlgRobotActionReq::ParseFromArray`. -/
  parseFromArray : List UInt8 → Request
  /-- `SerializeToString`. -/
  serializeToString : Rsp → List UInt8

variable {W : Type}

/-- A frame handled: the state it was handled in, and the calls of `packSend` meanwhile. -/
structure Handled (W : Type) where
  header : MsgHeader
  data : List UInt8
  cards : Cards
  world : W
  calls : List SendAct

/-- The session as its handlers see it, with a record of the frames handled. -/
structure Responder (W : Type) where
  cards : Cards
  world : W
  handled : List (Handled W)

/-! ### The handlers -/

/-- `SessionHandle::handleRegister`, by its calls of `packSend`. -/
def handleRegister (K : Commands) (H : Host W) (uid : Int64) : List SendAct :=
  [.packSend uid K.nodeRegiserRsp.toInt32 (H.serializeToString (.nodeRegister 100))]

/-- `SessionHandle::handleKeeplive`, by its calls of `packSend`. -/
def handleKeeplive (K : Commands) (H : Host W) (w : W) (uid : Int64) : List SendAct :=
  [.packSend uid K.keepaliveRsp.toInt32 (H.serializeToString (.keepAlive (H.time w)))]

/-- The calls of `packSend` at the end of `handleRobotDecide2`. -/
def sendReply (K : Commands) (H : Host W) (uid : Int64) (r : Request) :
    Outcome Reply → List SendAct
  | .reached rp => [.packSend uid K.robotDecideRsp.toInt32
      (H.serializeToString (.robotAction 0 r.uid 1 rp.aiBet rp.aiAct))]
  | .refused    => []
  | .skipped    => []

/-- `SessionHandle::process`; `none` where something undefined stops the handler. -/
def process (K : Commands) (C : Configure) (H : Host W) (header : MsgHeader) (data : List UInt8)
    (σ : Responder W) : Option (Responder W) :=
  let done (s : Cards) (w : W) (calls : List SendAct) : Responder W :=
    ⟨s, w, σ.handled ++ [⟨header, data, σ.cards, σ.world, calls⟩]⟩
  let uid := header.m_nUid.toInt64
  if header.m_nCmd = K.nodeRegiserReq then
    some (done σ.cards σ.world (handleRegister K H uid))
  else if header.m_nCmd = K.keepaliveReq then
    some (done σ.cards σ.world (handleKeeplive K H σ.world uid))
  else if header.m_nCmd = K.robotDecideReq then
    let r := H.parseFromArray data
    match handleRobotDecide2Rsp C H.toDealer σ.cards σ.world r with
    | .error _      => none
    | .ok (s, w, o) => some (done s w (sendReply K H uid r o))
  else some (done σ.cards σ.world [])

/-! ### The ways out of `handleRobotDecide2` -/

/-- A hand of the search cannot be dealt. -/
def DealFails (E : Engine W) : List (List Card) → Cards → W → Prop
  | [], _, _           => False
  | hand :: rest, s, w =>
    match E.distributeCards5 w (s.testhands.put 0 hand) s.testboardCards with
    | (false, _) => True
    | (true, w)  => DealFails E rest { s with testhands := s.testhands.put 0 hand } w

/-- One of the checks of the handler sends the request away. -/
inductive LeavesEarly (C : Configure) (E : Engine W) (s : Cards) (w : W) (r : Request) : Prop
  /-- The blinds are not 1 and 2, or the uid is not seated with two hole cards. -/
  | invalid (h : ¬ r.Valid)
  /-- There is no engine. -/
  | engine (h : prepare C E w r = none)
  /-- The session's cards cannot be dealt after the replay. -/
  | deal {w₀ : W} {p : Replay W} (hprep : prepare C E w r = some w₀)
      (hreplay : replay C E r (s.begin r).testboardCards (unshuffle E w₀ r) = .ok p)
      (h : (deal E (s.begin r) p.world).1 = none)
  /-- Player 0 was not dealt two cards, or there are not 0, 3, 4 or 5 board cards. -/
  | round {w₀ : W} {p : Replay W} {holeCards : List Card} (hprep : prepare C E w r = some w₀)
      (hreplay : replay C E r (s.begin r).testboardCards (unshuffle E w₀ r) = .ok p)
      (hdeal : (deal E (s.begin r) p.world).1 = some holeCards)
      (h : roundOf holeCards r.board_card.length = none)
  /-- A hand of the search cannot be dealt. -/
  | search {s₁ : Cards} {w₁ : W} {q : Ready} (hq : q.Searches C)
      (hrestore : restore C E s w r = .ok (s₁, w₁, .reached q))
      (h : DealFails E showlist s₁ (research E q w₁))

variable {C : Configure} {E : Engine W} {s s' : Cards} {w w' : W} {r : Request}

/-- The loop over the hands is left early exactly when one cannot be dealt. -/
theorem showFrom_outcome {round : Nat} {stage : Int} {hands : List (List Card)}
    {found : Option Lookup} {o : Outcome (Option Lookup)}
    (h : showFrom E round stage hands s w found = (s', w', o)) :
    DealFails E hands s w ∧ o = .refused ∨ ¬ DealFails E hands s w ∧ ∃ l, o = .reached l := by
  induction hands generalizing s w found with
  | nil =>
      cases h
      exact .inr ⟨id, found, rfl⟩
  | cons hand rest ih =>
      rcases hdeal : E.distributeCards5 w (s.testhands.put 0 hand) s.testboardCards
        with ⟨_ | _, w₁⟩
      · simp only [showFrom, hdeal] at h
        cases h
        simp [DealFails, hdeal]
      · simp only [DealFails, hdeal]
        cases hnode : E.findAgentNode w₁ round stage (E.infoSet w₁) with
        | none =>
            simp only [showFrom, hdeal, hnode] at h
            exact ih h
        | some strategySum =>
            simp only [showFrom, hdeal, hnode] at h
            exact ih h

theorem search_outcome {q : Ready} {o : Outcome (Option Lookup)}
    (h : search C E q s w = (s', w', o)) :
    (q.Searches C ∧ DealFails E showlist s (research E q w)) ∧ o = .refused ∨
      ¬ (q.Searches C ∧ DealFails E showlist s (research E q w)) ∧ ∃ l, o = .reached l := by
  unfold search at h
  by_cases hq : q.Searches C
  · rw [if_pos hq] at h
    simpa only [hq, true_and] using showFrom_outcome h
  · rw [if_neg hq] at h
    cases h
    exact .inr ⟨fun hs => hq hs.1, none, rfl⟩

/-- The checks before the search: with ten entries or more, they send the request away or let it
through to the decision state. -/
theorem restore_outcome {o : Outcome Ready} (hlen : 10 ≤ r.history.length)
    (h : restore C E s w r = .ok (s', w', o)) :
    LeavesEarly C E s w r ∧ o = .refused ∨ ∃ q, o = .reached q := by
  have hlen' : ¬ r.history.length < 10 := Nat.not_lt.mpr hlen
  unfold restore at h
  by_cases hvalid : r.Valid
  · rw [if_pos hvalid] at h
    cases hprep : prepare C E w r with
    | none =>
        simp only [hprep] at h
        cases h
        exact .inl ⟨.engine hprep, rfl⟩
    | some w₀ =>
        simp only [hprep, if_neg hlen'] at h
        obtain ⟨p, hp, h⟩ := bind_eq_ok.mp h
        rcases hdeal : deal E (s.begin r) p.world with ⟨_ | holeCards, s₁, w₁⟩
        · rw [hdeal] at h
          cases h
          exact .inl ⟨.deal hprep hp (by rw [hdeal]), rfl⟩
        · rw [hdeal] at h
          cases hround : roundOf holeCards r.board_card.length with
          | none =>
              simp only [resume, hround] at h
              cases h
              exact .inl ⟨.round hprep hp (by rw [hdeal]) hround, rfl⟩
          | some round =>
              simp only [resume, hround] at h
              obtain ⟨d, -, h⟩ := bind_eq_ok.mp h
              cases h
              exact .inr ⟨_, rfl⟩
  · rw [if_neg hvalid] at h
    cases h
    exact .inl ⟨.invalid hvalid, rfl⟩

/-- What got to the decision state passed the checks before it. -/
theorem LeavesEarly.of_reached {q : Ready} (h : LeavesEarly C E s w r)
    (hrestore : restore C E s w r = .ok (s', w', .reached q)) :
    q.Searches C ∧ DealFails E showlist s' (research E q w') := by
  obtain ⟨hvalid, -, w₀, p, holeCards, hprep, hp, hdeal, hround, -⟩ := restore_reached hrestore
  cases h with
  | invalid h => exact absurd hvalid h
  | engine h =>
      cases hprep.symm.trans h
  | deal hprep' hp' h =>
      cases hprep.symm.trans hprep'
      cases hp.symm.trans hp'
      rw [hdeal] at h
      cases h
  | round hprep' hp' hdeal' h =>
      cases hprep.symm.trans hprep'
      cases hp.symm.trans hp'
      rw [hdeal] at hdeal'
      cases hdeal'
      rw [hround] at h
      cases h
  | search hq hrestore' h =>
      cases hrestore.symm.trans hrestore'
      exact ⟨hq, h⟩

/-- **The handler's end.**  With ten entries or more, the handler gets to its end exactly when it
does not leave early. -/
theorem handleRsp_iff {D : Dealer W} {o : Outcome Reply} (hlen : 10 ≤ r.history.length)
    (h : handleRobotDecide2Rsp C D s w r = .ok (s', w', o)) :
    (∃ rp, o = .reached rp) ↔ ¬ LeavesEarly C D.toEngine s w r := by
  obtain ⟨⟨s₁, w₁, o₁⟩, hrestore, h⟩ := bind_eq_ok.mp h
  rcases restore_outcome hlen hrestore with ⟨hleave, rfl⟩ | ⟨q, rfl⟩
  · cases h
    exact iff_of_false nofun (not_not_intro hleave)
  · rcases hsearch : search C D.toEngine q s₁ w₁ with ⟨s₂, w₂, o₂⟩
    rcases search_outcome hsearch with ⟨⟨hq, hfail⟩, rfl⟩ | ⟨hno, l, rfl⟩
    · simp only [hsearch] at h
      cases h
      exact iff_of_false nofun (not_not_intro (.search hq hrestore hfail))
    · simp only [hsearch] at h
      cases h
      exact iff_of_true ⟨_, rfl⟩ fun hleave => hno (hleave.of_reached hrestore)

/-! ### Runs of frames -/

variable {K : Commands} {H : Host W}

/-- `packSend` was called once, with the uid of the request and the command of its response. -/
def Handled.Answered (K : Commands) (x : Handled W) : Prop :=
  ∃ data, x.calls =
    [.packSend x.header.m_nUid.toInt64 (K.rsp x.header.m_nCmd).toInt32 data]

/-- How a request is answered: at most once; once if it is not for a decision; and if it is, and has
ten entries or more, once unless the handler leaves early. -/
structure Handled.Settled (K : Commands) (C : Configure) (H : Host W) (x : Handled W) : Prop where
  once : x.Answered K ∨ x.calls = []
  prompt : x.header.m_nCmd ≠ K.robotDecideReq → x.Answered K
  decision : x.header.m_nCmd = K.robotDecideReq →
    10 ≤ (H.parseFromArray x.data).history.length →
    (x.Answered K ↔
      ¬ LeavesEarly C H.toEngine x.cards x.world (H.parseFromArray x.data))

theorem Commands.rsp_decide (K : Commands) : K.rsp K.robotDecideReq = K.robotDecideRsp := by
  rw [rsp, if_neg K.register_ne_decide.symm, if_neg K.keepalive_ne_decide.symm]

/-- A frame is handled once. -/
theorem process_handled {header : MsgHeader} {data : List UInt8} {σ σ' : Responder W}
    (hcmd : K.Asks header.m_nCmd) (h : process K C H header data σ = some σ') :
    ∃ calls, σ'.handled = σ.handled ++ [⟨header, data, σ.cards, σ.world, calls⟩] ∧
      Handled.Settled K C H ⟨header, data, σ.cards, σ.world, calls⟩ := by
  unfold process at h
  by_cases hreg : header.m_nCmd = K.nodeRegiserReq
  · rw [if_pos hreg] at h
    cases h
    have hans : Handled.Answered K
        ⟨header, data, σ.cards, σ.world, handleRegister K H header.m_nUid.toInt64⟩ :=
      ⟨_, by rw [Commands.rsp, if_pos hreg]; rfl⟩
    exact ⟨_, rfl, .inl hans, fun _ => hans,
      fun hdec => absurd (hreg.symm.trans hdec) K.register_ne_decide⟩
  · rw [if_neg hreg] at h
    by_cases hkeep : header.m_nCmd = K.keepaliveReq
    · rw [if_pos hkeep] at h
      cases h
      have hans : Handled.Answered K
          ⟨header, data, σ.cards, σ.world, handleKeeplive K H σ.world header.m_nUid.toInt64⟩ :=
        ⟨_, by rw [Commands.rsp, if_neg hreg, if_pos hkeep]; rfl⟩
      exact ⟨_, rfl, .inl hans, fun _ => hans,
        fun hdec => absurd (hkeep.symm.trans hdec) K.keepalive_ne_decide⟩
    · rw [if_neg hkeep] at h
      have hdec : header.m_nCmd = K.robotDecideReq := (hcmd.resolve_left hreg).resolve_left hkeep
      rw [if_pos hdec] at h
      cases hrsp : handleRobotDecide2Rsp C H.toDealer σ.cards σ.world (H.parseFromArray data) with
      | error e => simp only [hrsp] at h; cases h
      | ok out =>
          obtain ⟨s, w, o⟩ := out
          simp only [hrsp] at h
          cases h
          refine ⟨_, rfl, ?_, fun hne => absurd hdec hne, fun _ hlen => ?_⟩
          · cases o with
            | reached rp => exact .inl ⟨_, by rw [hdec, K.rsp_decide]; rfl⟩
            | refused => exact .inr rfl
            | skipped => exact .inr rfl
          · rw [← handleRsp_iff hlen hrsp]
            cases o with
            | reached rp => exact iff_of_true ⟨_, by rw [hdec, K.rsp_decide]; rfl⟩ ⟨_, rfl⟩
            | refused => exact iff_of_false (fun ⟨_, hcalls⟩ => by cases hcalls) nofun
            | skipped => exact iff_of_false (fun ⟨_, hcalls⟩ => by cases hcalls) nofun

/-- A frame is processed. -/
def processFrame (K : Commands) (C : Configure) (H : Host W) (σ : Responder W)
    (f : Frame K.range) : Option (Responder W) :=
  process K C H f.header f.body σ

/-- A run of frames is handled frame by frame. -/
theorem run_handled {frames : List (Frame K.range)} {σ t : Responder W}
    (hcmd : ∀ f ∈ frames, K.Asks f.header.m_nCmd)
    (h : run (processFrame K C H) σ frames = some t) :
    ∃ log, t.handled = σ.handled ++ log ∧
      log.map (fun x => (x.header, x.data)) = frames.map (fun f => (f.header, f.body)) ∧
      ∀ x ∈ log, x.Settled K C H := by
  induction frames generalizing σ with
  | nil =>
      cases h
      exact ⟨[], (List.append_nil _).symm, rfl, nofun⟩
  | cons f frames ih =>
      obtain ⟨hf, hframes⟩ := List.forall_mem_cons.mp hcmd
      obtain ⟨σ', hstep, h⟩ := run_cons_eq_some h
      obtain ⟨calls, hhandled, hsettled⟩ := process_handled hf hstep
      obtain ⟨log, hlog, hmap, hall⟩ := ih hframes h
      refine ⟨⟨f.header, f.body, σ.cards, σ.world, calls⟩ :: log, ?_, ?_,
        List.forall_mem_cons.mpr ⟨hsettled, hall⟩⟩
      · rw [hlog, hhandled, List.append_assoc]
        rfl
      · rw [List.map_cons, List.map_cons, hmap]

/-- `process`, for as long as it is defined. -/
def processDefined (K : Commands) (C : Configure) (H : Host W) (header : MsgHeader)
    (data : List UInt8) (σ : Option (Responder W)) : Option (Responder W) :=
  σ.bind (process K C H header data)

theorem processAll_eq_run (σ : Responder W) (frames : List (Frame K.range)) :
    processAll (processDefined K C H) frames (some σ) = run (processFrame K C H) σ frames := by
  induction frames generalizing σ with
  | nil => rfl
  | cons f frames ih =>
      have hstep : processAll (processDefined K C H) (f :: frames) (some σ) =
          processAll (processDefined K C H) frames (processFrame K C H σ f) := rfl
      rw [hstep]
      cases hf : processFrame K C H σ f with
      | some σ' => rw [run_cons hf, ih]
      | none =>
          -- nothing is processed once something undefined came up
          have hnone : ∀ fs : List (Frame K.range),
              processAll (processDefined K C H) fs none = none := by
            intro fs
            induction fs with
            | nil => rfl
            | cons g fs ih => exact ih
          rw [hnone, run, hf]
          rfl

/-- `dispatch` on complete frames processes each of them. -/
theorem dispatch_frames (o : HostOrder) {b : SessionBuffer} {frames : List (Frame K.range)}
    (hlive : b.live = (framing K.range).encodeAll frames) (σ : Responder W) :
    ∃ b', dispatch o K.range (processDefined K C H) b (some σ) =
      some (false, b', run (processFrame K C H) σ frames) := by
  obtain ⟨b', hdis, -⟩ : ∃ b', dispatch o K.range (processDefined K C H) b (some σ) = _ ∧ _ :=
    dispatch_eq b (some σ)
  have hparse := Framing.parse_encodeAll (F := framing K.range) frames []
  rw [List.append_nil, Framing.parse_nil, List.append_nil, ← hlive] at hparse
  rw [hparse, processAll_eq_run] at hdis
  exact ⟨b', hdis⟩

/-- **One answer at most.**  `dispatch` on complete frames that ask for a response handles each of
them once, in order.  A request is answered at most once, with its uid and the command of its
response; the registration of a node and a keep-alive always are, and a request for a decision with
ten entries or more exactly when the handler does not leave early. -/
theorem answers_of_dispatch {o : HostOrder} {b b' : SessionBuffer} {frames : List (Frame K.range)}
    {σ t : Responder W} {shut : Bool} (hlive : b.live = (framing K.range).encodeAll frames)
    (hcmd : ∀ f ∈ frames, K.Asks f.header.m_nCmd)
    (h : dispatch o K.range (processDefined K C H) b (some σ) = some (shut, b', some t)) :
    shut = false ∧ ∃ log, t.handled = σ.handled ++ log ∧
      log.map (fun x => (x.header, x.data)) = frames.map (fun f => (f.header, f.body)) ∧
      ∀ x ∈ log, x.Settled K C H := by
  obtain ⟨b'', hdis⟩ := dispatch_frames (C := C) (H := H) o hlive σ
  rw [hdis] at h
  cases hrun : run (processFrame K C H) σ frames with
  | none => rw [hrun] at h; cases h
  | some t' =>
      rw [hrun] at h
      cases h
      exact ⟨rfl, run_handled hcmd hrun⟩

/-! ### Two frames -/

/-- The command words 1 to 6. -/
def sixWords : Commands := ⟨1, 2, 3, 4, 5, 6, by decide, by decide, by decide⟩

/-- The plain dealer, where every body is this request. -/
def plainHost (r : Request) : Host Unit :=
  { plainDealer [] with
    time := fun _ => 0
    parseFromArray := fun _ => r
    serializeToString := fun _ => [] }

/-- A session before its first frame. -/
def Responder.fresh (w : W) : Responder W := ⟨.fresh, w, []⟩

/-- A frame with this command, from uid 7. -/
def oneByte (cmd : UInt32) (h : 1 ≤ cmd ∧ cmd ≤ 6) : Frame sixWords.range where
  header := ⟨21, cmd, 7, 0⟩
  body := [0]
  accepted := ⟨(by decide : 20 ≤ 21), (by decide : 21 < 32768), h⟩
  len_eq := rfl

/-- A buffer with these bytes live. -/
def holding (data : List UInt8) (h : data.length ≤ capacity) : SessionBuffer :=
  (SessionBuffer.new fun _ => 0).store data (by simpa [SessionBuffer.new] using h)

theorem live_holding (data : List UInt8) (h : data.length ≤ capacity) :
    (holding data h).live = data := by
  rw [holding, SessionBuffer.live_store, SessionBuffer.live_new, List.nil_append]

/-- A registration and a request for a decision. -/
def twoFrames : List (Frame sixWords.range) := [oneByte 1 (by decide), oneByte 5 (by decide)]

/-- The short stack, with a big blind of 4. -/
def wrongBlinds : Request := { shortStack with big_blind := 4 }

/-- A request with other blinds gets no answer. -/
theorem unanswered_blinds : ∃ b' t,
    dispatch .little sixWords.range (processDefined sixWords headsUp (plainHost wrongBlinds))
      (holding ((framing sixWords.range).encodeAll twoFrames) (by decide))
      (some (.fresh ())) = some (false, b', some t) ∧
    t.handled.length = 2 ∧ ∃ x ∈ t.handled, x.calls = [] ∧ ¬ x.Answered sixWords := by
  obtain ⟨b', hdis⟩ := dispatch_frames (C := headsUp) (H := plainHost wrongBlinds) .little
    (live_holding ((framing sixWords.range).encodeAll twoFrames) (by decide)) (.fresh ())
  obtain ⟨t, hrun, hlen, hcalls⟩ : ∃ t,
      run (processFrame sixWords headsUp (plainHost wrongBlinds)) (.fresh ()) twoFrames =
        some t ∧ t.handled.length = 2 ∧ ∃ x ∈ t.handled, x.calls = [] :=
    ⟨_, rfl, rfl, _, List.mem_cons_of_mem _ List.mem_cons_self, rfl⟩
  obtain ⟨x, hx, hnone⟩ := hcalls
  refine ⟨b', t, hrun ▸ hdis, hlen, x, hx, hnone, ?_⟩
  rintro ⟨data, hdata⟩
  rw [hnone] at hdata
  cases hdata

/-- The short stack itself is answered, after the registration. -/
theorem answered_shortStack : ∃ b' t,
    dispatch .little sixWords.range (processDefined sixWords headsUp (plainHost shortStack))
      (holding ((framing sixWords.range).encodeAll twoFrames) (by decide))
      (some (.fresh ())) = some (false, b', some t) ∧
    t.handled.length = 2 ∧
    ∀ x ∈ t.handled, x.Settled sixWords headsUp (plainHost shortStack) := by
  have hlive := live_holding ((framing sixWords.range).encodeAll twoFrames) (by decide)
  obtain ⟨b', hdis⟩ :=
    dispatch_frames (C := headsUp) (H := plainHost shortStack) .little hlive (.fresh ())
  obtain ⟨t, hrun, hlen⟩ : ∃ t,
      run (processFrame sixWords headsUp (plainHost shortStack)) (.fresh ()) twoFrames = some t ∧
        t.handled.length = 2 := ⟨_, rfl, rfl⟩
  rw [hrun] at hdis
  obtain ⟨-, log, hlog, -, hall⟩ := answers_of_dispatch hlive (by
    intro f hf
    rcases List.mem_cons.mp hf with rfl | hf
    · exact .inl rfl
    · rw [List.mem_singleton.mp hf]
      exact .inr (.inr rfl)) hdis
  refine ⟨b', t, hdis, hlen, ?_⟩
  rw [hlog]
  exact hall

end Holdem.Decide
