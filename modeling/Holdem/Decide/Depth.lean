import Holdem.Decide.Stack
import Holdem.Research.Completes

/-!
# Decide — Depth

`depthLimitedSearch`, as the handler calls it: one thread handles the requests, with a `State` for
each, and asks the four `Research` objects of `gResearch`.  A research task reads the game through
`mGameState`, a pointer that its `Research` keeps when the handler deletes the state behind a reply.

* `searched_state_lives`: as long as no search is killed or out of time, a research task finds the
  state of the request that it is for, which is not deleted.
-/

namespace Holdem.Decide
open Support

/-- What `depthLimitedSearch` reads from the configuration. -/
structure DepthConfigure extends Configure where
  mResearchPreflopTimes : Int32
  mResearchFlopTimes : Int32
  mResearchTurnTimes : Int32
  mResearchRiverTimes : Int32

/-- `researchCount` of `depthLimitedSearch`, or none where it returns without a search. -/
def researchCount (C : DepthConfigure) (stage : Int) : Option Int32 :=
  if stage ≥ C.mResearchStage then
    if stage = 1 then some C.mResearchPreflopTimes
    else if stage = 2 then some C.mResearchFlopTimes
    else if stage = 3 then some C.mResearchTurnTimes
    else if stage = 4 then some C.mResearchRiverTimes
    -- invalid stage
    else none
  -- no real-time search
  else none

/-- Where the thread of the handler stands. -/
inductive Phase
  /-- No request is handled. -/
  | away
  /-- A request is handled, with this state. -/
  | handling (state : Nat)
  /-- In `depthLimitedSearch` of this `Research`, with `mGameState` set. -/
  | calling (state : Nat) (i : Fin 4) (count : Int32)
  /-- In its `search`. -/
  | searching (state : Nat) (i : Fin 4) (count : Int32)
  deriving DecidableEq, Repr

/-- The state of the request that is handled. -/
def Phase.state : Phase → Option Nat
  | .away                   => none
  | .handling state         => some state
  | .calling state _ _      => some state
  | .searching state _ _    => some state

/-- The four searches, the game states that they point to, and the thread of the handler.  The
states are numbered as they are created. -/
structure Deployment (m : Nat) where
  gResearch : Fin 4 → System m
  mGameState : Fin 4 → Option Nat
  created : Nat
  deleted : List Nat
  phase : Phase

/-- What can happen next. -/
inductive DepthAct (m : Nat)
  /-- `new State`. -/
  | newState
  /-- `depthLimitedSearch` of a `Research`, up to its call of `search`. -/
  | depthLimitedSearch (i : Fin 4) (infoSet : String)
  /-- The call of `search`. -/
  | search
  /-- A line of the search, or of a consumer, or `kill`. -/
  | line (i : Fin 4) (a : Act m)
  /-- `depthLimitedSearch` returns, behind its `search`. -/
  | found
  /-- `delete state`. -/
  | deleteState
  /-- The handler returns without `delete state`. -/
  | leave

variable {m : Nat}

/-- A `Research` in another state. -/
def Deployment.withSystem (s : Deployment m) (i : Fin 4) (t : System m) : Deployment m :=
  { s with gResearch := Function.update s.gResearch i t }

/-- A step of the deployment. -/
def depthStep (C : DepthConfigure) (cfg : Config) (s : Deployment m) :
    DepthAct m → Option (Deployment m)
  | .newState                     =>
    match s.phase with
    | .away => some { s with created := s.created + 1, phase := .handling s.created }
    | _     => none
  | .depthLimitedSearch i infoSet =>
    match s.phase with
    | .handling state =>
      match researchCount C (stageOf infoSet) with
      | some count =>
        some { s with
          mGameState := Function.update s.mGameState i (some state)
          phase := .calling state i count }
      | none       => some s
    | _               => none
  | .search                       =>
    match s.phase with
    | .calling state i count =>
      (step cfg (s.gResearch i) (.call count)).map fun t =>
        { s.withSystem i t with phase := .searching state i count }
    | _                      => none
  | .line _ (.call _)             => none
  | .line i a                     => (step cfg (s.gResearch i) a).map (s.withSystem i)
  | .found                        =>
    match s.phase with
    | .searching state i _ =>
      if (s.gResearch i).pc.searching then none else some { s with phase := .handling state }
    | _                    => none
  | .deleteState                  =>
    match s.phase with
    | .handling state => some { s with deleted := s.deleted ++ [state], phase := .away }
    | _               => none
  | .leave                        =>
    match s.phase with
    | .handling _ => some { s with phase := .away }
    | _           => none

/-- `gResearch` after `init`, before the first request. -/
def Deployment.fresh (m : Nat) : Deployment m where
  gResearch := fun _ => System.fresh m
  mGameState := fun _ => none
  created := 0
  deleted := []
  phase := .away

/-- No search is killed, and none is out of time. -/
def DepthAct.Timely : DepthAct m → Prop
  | .line _ a => a.Timely
  | _         => True

/-- A state that was created and is not deleted. -/
def Deployment.Live (s : Deployment m) (state : Nat) : Prop :=
  state < s.created ∧ state ∉ s.deleted

/-- A research task of this `Research` is queued or processed. -/
def Deployment.Busy (s : Deployment m) (i : Fin 4) : Prop :=
  ∃ id, .research id ∈ (s.gResearch i).research.tqResearch ∨
    ∃ j, (s.gResearch i).research.consumers j = .processing (.research id)

/-! ### What the deployment keeps -/

/-- The search of a `Research` that is in its `search`, and for how many iterations. -/
def Phase.serves : Phase → Fin 4 → Option Int32
  | .searching _ i count, j => if i = j then some count else none
  | _, _                    => none

/-- The `Research` that is in `depthLimitedSearch`. -/
def Phase.asks : Phase → Option (Fin 4)
  | .calling _ i _   => some i
  | .searching _ i _ => some i
  | _                => none

/-- A search that is under way, or may be called. -/
def Stands (t : System m) : Option Int32 → Prop
  | none       => t.Ready
  | some count => t.Serving count

/-- What every step in time keeps. -/
structure Deployment.Sound (s : Deployment m) : Prop where
  stands : ∀ i, Stands (s.gResearch i) (s.phase.serves i)
  points : ∀ i, s.phase.asks = some i → s.mGameState i = s.phase.state
  live : ∀ state, s.phase.state = some state → s.Live state
  dead : ∀ state ∈ s.deleted, state < s.created

theorem Stands.step {cfg : Config} {t t' : System m} {x : Option Int32} {a : Act m}
    (h : Stands t x) (ha : a.Timely) (hstep : step cfg t a = some t') : Stands t' x := by
  cases x with
  | none => exact System.Ready.step h ha hstep
  | some count => exact System.Serving.step h ha hstep

namespace Deployment.Sound

variable {C : DepthConfigure} {cfg : Config} {s s' : Deployment m}

theorem fresh (m : Nat) : (Deployment.fresh m).Sound where
  stands := fun _ => ready_fresh m
  points := fun _ h => by cases h
  live := fun _ h => by cases h
  dead := fun _ h => absurd h List.not_mem_nil

/-- A line of one of the four. -/
theorem line (h : s.Sound) {i : Fin 4} {a : Act m} (ha : a.Timely) {t : System m}
    (hstep : Holdem.step cfg (s.gResearch i) a = some t) : (s.withSystem i t).Sound where
  stands := fun j => by
    by_cases hj : j = i
    · subst hj
      simp only [withSystem, Function.update_self]
      exact (h.stands j).step ha hstep
    · simp only [withSystem, Function.update_of_ne hj]
      exact h.stands j
  points := h.points
  live := h.live
  dead := h.dead

/-- The call of `search`. -/
theorem search (h : s.Sound) {state : Nat} {i : Fin 4} {count : Int32}
    (hphase : s.phase = .calling state i count) {t : System m}
    (hstep : Holdem.step cfg (s.gResearch i) (.call count) = some t) :
    Deployment.Sound { s.withSystem i t with phase := .searching state i count } where
  stands := fun j => by
    have hj := h.stands j
    rw [hphase] at hj
    by_cases hij : i = j
    · subst hij
      simp only [withSystem, Function.update_self, Phase.serves, if_true]
      exact System.Serving.call hj hstep
    · simp only [withSystem, Function.update_of_ne (Ne.symm hij), Phase.serves, if_neg hij]
      exact hj
  points := fun j hj => by
    have hpoints := h.points j
    rw [hphase] at hpoints
    exact hpoints hj
  live := fun st hst => by
    have hlive := h.live st
    rw [hphase] at hlive
    exact hlive hst
  dead := h.dead

/-- `depthLimitedSearch` returns. -/
theorem found (h : s.Sound) {state : Nat} {i : Fin 4} {count : Int32}
    (hphase : s.phase = .searching state i count)
    (hidle : (s.gResearch i).pc.searching = false) :
    Deployment.Sound { s with phase := .handling state } where
  stands := fun j => by
    have hj := h.stands j
    rw [hphase] at hj
    by_cases hij : i = j
    · subst hij
      simp only [Phase.serves, if_true] at hj
      exact System.Serving.ready hj hidle
    · simp only [Phase.serves, if_neg hij] at hj
      exact hj
  points := fun _ hj => by cases hj
  live := fun st hst => by
    have hlive := h.live st
    rw [hphase] at hlive
    exact hlive hst
  dead := h.dead

/-- Every step in time keeps it. -/
theorem step (h : s.Sound) {a : DepthAct m} (ha : a.Timely)
    (hstep : depthStep C cfg s a = some s') : s'.Sound := by
  obtain ⟨gResearch, mGameState, created, deleted, phase⟩ := s
  cases a with
  | newState =>
      cases phase with
      | away =>
          cases hstep
          refine ⟨h.stands, fun _ hj => (by cases hj), fun st hst => ?_,
            fun st hst => Nat.lt_succ_of_lt (h.dead st hst)⟩
          cases hst
          exact ⟨Nat.lt_succ_self _, fun hdead => Nat.lt_irrefl _ (h.dead _ hdead)⟩
      | _ => cases hstep
  | depthLimitedSearch i infoSet =>
      cases phase with
      | handling state =>
          simp only [depthStep] at hstep
          cases hcount : researchCount C (stageOf infoSet) with
          | none =>
              simp only [hcount, Option.some.injEq] at hstep
              exact hstep ▸ h
          | some count =>
              simp only [hcount, Option.some.injEq] at hstep
              subst hstep
              refine ⟨h.stands, fun j hj => ?_, h.live, h.dead⟩
              cases hj
              exact Function.update_self ..
      | _ => cases hstep
  | search =>
      cases phase with
      | calling state i count =>
          simp only [depthStep, Option.map_eq_some_iff] at hstep
          obtain ⟨t, ht, rfl⟩ := hstep
          exact h.search rfl ht
      | _ => cases hstep
  | line i a =>
      have ha : a.Timely := ha
      cases a with
      | call n => cases ha
      | search expired | consume j | kill =>
          simp only [depthStep, Option.map_eq_some_iff] at hstep
          obtain ⟨t, ht, rfl⟩ := hstep
          exact h.line ha ht
  | found =>
      cases phase with
      | searching state i count =>
          simp only [depthStep, Option.ite_none_left_eq_some, Option.some.injEq,
            Bool.not_eq_true] at hstep
          obtain ⟨hidle, rfl⟩ := hstep
          exact h.found rfl hidle
      | _ => cases hstep
  | deleteState =>
      cases phase with
      | handling state =>
          cases hstep
          refine ⟨h.stands, fun _ hj => (by cases hj), fun _ hst => (by cases hst),
            fun st hst => ?_⟩
          rcases List.mem_append.mp hst with hst | hst
          · exact h.dead st hst
          · rw [List.mem_singleton.mp hst]
            exact (h.live state rfl).1
      | _ => cases hstep
  | leave =>
      cases phase with
      | handling state =>
          cases hstep
          exact ⟨h.stands, fun _ hj => (by cases hj), fun _ hst => (by cases hst), h.dead⟩
      | _ => cases hstep

/-- A busy `Research` is in its search, and points to the state of the request. -/
theorem busy (h : s.Sound) {i : Fin 4} (hbusy : s.Busy i) :
    ∃ state count, s.phase = .searching state i count ∧ s.mGameState i = some state ∧
      s.Live state := by
  have hstands := h.stands i
  cases hserves : s.phase.serves i with
  | none =>
      rw [hserves] at hstands
      obtain ⟨id, hqueued | ⟨j, hheld⟩⟩ := hbusy
      · exact absurd hqueued (hstands.settled.none_left.free id).1
      · exact absurd hheld ((hstands.settled.none_left.free id).2 j)
  | some count =>
      cases hphase : s.phase with
      | searching state i' count' =>
          simp only [hphase, Phase.serves, Option.ite_none_right_eq_some] at hserves
          obtain ⟨rfl, -⟩ := hserves
          have hpoints := h.points i'
          have hlive := h.live state
          rw [hphase] at hpoints hlive
          exact ⟨state, count', rfl, hpoints rfl, hlive rfl⟩
      | _ =>
          rw [hphase] at hserves
          cases hserves

end Deployment.Sound

/-- **The searched state lives.**  In every interleaving of the handler with the four searches and
their consumers, with no search killed or out of time: a `Research` with a research task queued or
processed is the one that the handler is in the `search` of, and its `mGameState` is the state of
that request, which is not deleted; and when a `search` has returned, each of its tasks has been
processed once. -/
theorem searched_state_lives (C : DepthConfigure) (cfg : Config) (as : List (DepthAct m))
    (s : Deployment m) (htimely : ∀ a ∈ as, a.Timely)
    (hrun : run (depthStep C cfg) (Deployment.fresh m) as = some s) :
    (∀ i, s.Busy i → ∃ state count, s.phase = .searching state i count ∧
      s.mGameState i = some state ∧ s.Live state) ∧
    ∀ state i count, s.phase = .searching state i count →
      (s.gResearch i).pc.searching = false → (s.gResearch i).Completed count := by
  have hsound : s.Sound := guarded_invariant (G := fun _ a => a.Timely)
    (fun _ _ _ h ha hstep => h.step ha hstep) (Deployment.Sound.fresh m)
    (guarded_of_forall (fun a ha _ => htimely a ha) _) hrun
  refine ⟨fun i hbusy => hsound.busy hbusy, fun state i count hphase hidle => ?_⟩
  have hstands := hsound.stands i
  simp only [hphase, Phase.serves, if_true] at hstands
  exact System.Serving.completed hstands hidle

/-- Up to three iterations at each of the four stages. -/
def fewTimes : DepthConfigure where
  toConfigure := headsUp
  mResearchPreflopTimes := 1
  mResearchFlopTimes := 2
  mResearchTurnTimes := 3
  mResearchRiverTimes := 1

/-- A request searches on the turn, until the only consumer has the first task. -/
def turnSearch : List (DepthAct 1) :=
  [.newState, .depthLimitedSearch 2 "3", .search] ++
    (lines 12 ++ consumes (Fin.last 0) 2).map (.line 2)

theorem searched_state_lives_turn :
    ∃ s, run (depthStep fewTimes pairConfig) (Deployment.fresh 1) turnSearch = some s ∧
      (∀ i, s.Busy i → ∃ state count, s.phase = .searching state i count ∧
        s.mGameState i = some state ∧ s.Live state) ∧
      ∀ state i count, s.phase = .searching state i count →
        (s.gResearch i).pc.searching = false → (s.gResearch i).Completed count := by
  refine ⟨_, rfl, searched_state_lives fewTimes pairConfig turnSearch _ ?_ rfl⟩
  simp [turnSearch, lines, consumes, DepthAct.Timely, Act.Timely]

/-- Out of time, the search returns while the consumer still has its task, and the state that the
task reads is deleted. -/
example : ∃ s, run (depthStep fewTimes pairConfig) (Deployment.fresh 1)
      (turnSearch ++ (lines 4 ++ [Act.search true, Act.search false]).map (.line 2) ++
        [.found, .deleteState]) = some s ∧
    s.Busy 2 ∧ s.mGameState 2 = some 0 ∧ ¬ s.Live 0 :=
  ⟨_, rfl, ⟨1, .inr ⟨Fin.last 0, rfl⟩⟩, rfl, fun h => h.2 (List.mem_singleton.mpr rfl)⟩

end Holdem.Decide
