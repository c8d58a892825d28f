import Holdem.Decide.Answer
import Holdem.Session.Server

/-!
# Decide — Service

The server with its handlers.  Every session has its cards, and all sessions share the searches, the
random engines and whatever else the world is made of; what one connection asks for changes the
world that the next is answered from.

`Log` says what nevertheless holds of each of them: its frames are handled once each, in order, a
request is answered at most once, with its uid and the command of its response, and what is no
request is not answered.  `everyone_answered` is that for every connection, in every interleaving of
the connections, however the bytes arrive and whichever writes fail.
-/

namespace Holdem.Decide
open Support

variable {ι W : Type}

/-- What a session has of its own: its cards, and the record of the frames handled. -/
structure Desk (W : Type) where
  cards : Cards
  handled : List (Handled W)

/-- A session before its first frame. -/
def Desk.fresh : Desk W := ⟨.fresh, []⟩

/-- `SessionHandle::process`, by its calls of `packSend`. -/
def answer (K : Commands) (C : Configure) (H : Host W) : Answering (Desk W) W :=
  fun header data t w => (process K C H header data ⟨t.cards, w, t.handled⟩).map fun σ =>
    ((σ.handled.drop t.handled.length).flatMap Handled.calls, ⟨σ.cards, σ.handled⟩, σ.world)

/-- How a frame is answered: a request as `Settled` says, and another frame not at all. -/
structure Handled.Served (K : Commands) (C : Configure) (H : Host W) (x : Handled W) : Prop where
  request : K.Asks x.header.m_nCmd → x.Settled K C H
  other : ¬ K.Asks x.header.m_nCmd → x.calls = []

/-- The frames were handled once each, in order, and the calls are those of the handlers. -/
structure Desk.Log (K : Commands) (C : Configure) (H : Host W) (frames : List (Frame K.range))
    (acts : List SendAct) (t : Desk W) : Prop where
  frames : t.handled.map (fun x => (x.header, x.data)) = frames.map fun f => (f.header, f.body)
  acts : acts = t.handled.flatMap Handled.calls
  served : ∀ x ∈ t.handled, x.Served K C H

variable {K : Commands} {C : Configure} {H : Host W}

/-- A frame that is no request is on record, without an answer. -/
theorem process_other {header : MsgHeader} {data : List UInt8} {σ σ' : Responder W}
    (hcmd : ¬ K.Asks header.m_nCmd) (h : process K C H header data σ = some σ') :
    σ'.handled = σ.handled ++ [⟨header, data, σ.cards, σ.world, []⟩] := by
  obtain ⟨hreg, hno⟩ := not_or.mp hcmd
  obtain ⟨hkeep, hdec⟩ := not_or.mp hno
  rw [process, if_neg hreg, if_neg hkeep, if_neg hdec] at h
  cases h
  rfl

/-- A frame is handled once. -/
theorem process_served {header : MsgHeader} {data : List UInt8} {σ σ' : Responder W}
    (h : process K C H header data σ = some σ') :
    ∃ calls, σ'.handled = σ.handled ++ [⟨header, data, σ.cards, σ.world, calls⟩] ∧
      Handled.Served K C H ⟨header, data, σ.cards, σ.world, calls⟩ := by
  by_cases hcmd : K.Asks header.m_nCmd
  · obtain ⟨calls, hhandled, hsettled⟩ := process_handled hcmd h
    exact ⟨calls, hhandled, fun _ => hsettled, fun hno => absurd hcmd hno⟩
  · exact ⟨[], process_other hcmd h, fun hasks => absurd hasks hcmd, fun _ => rfl⟩

theorem Desk.Log.fresh : (Desk.fresh : Desk W).Log K C H [] [] where
  frames := rfl
  acts := rfl
  served := fun _ h => by cases h

/-- One more frame, one more entry. -/
theorem Desk.Log.answer {frames : List (Frame K.range)} {acts acts' : List SendAct} {t t' : Desk W}
    {w w' : W} {f : Frame K.range} (h : t.Log K C H frames acts)
    (hans : answer K C H f.header f.body t w = some (acts', t', w')) :
    t'.Log K C H (frames ++ [f]) (acts ++ acts') := by
  rw [Decide.answer, Option.map_eq_some_iff] at hans
  obtain ⟨σ, hσ, hans⟩ := hans
  cases hans
  obtain ⟨calls, hhandled, hserved⟩ := process_served hσ
  simp only at hhandled
  rw [hhandled, List.drop_left]
  refine ⟨?_, ?_, ?_⟩
  · simp only [List.map_append, h.frames]
    rfl
  · simp only [List.flatMap_append, h.acts]
  · intro x hx
    rcases List.mem_append.mp hx with hx | hx
    · exact h.served x hx
    · rw [List.mem_singleton.mp hx]
      exact hserved

/-- **Everyone is answered.**  In every interleaving of the connections, with room for the chunks
and for the answers: of every connection the frames received so far were handled once each, in
order; what was packed for it are the answers to these, each with the uid of its request; what
libevent took is a part of them from the front; and until the session is released, what is left of
both streams stands in its two buffers. -/
theorem everyone_answered [DecidableEq ι] (o : HostOrder) (K : Commands) (C : Configure)
    (H : Host W) (w : W) (xs : List (ι × Incoming)) (s : Connections ι (Desk W) W)
    (hroom : Guarded (partyStep (connStep o K.range (answer K C H) .fresh))
      (PartyGuard (ConnRoom o K.range (answer K C H))) (Connections.start w) xs)
    (hrun : run (partyStep (connStep o K.range (answer K C H) .fresh)) (Connections.start w) xs =
      some s) (i : ι) (st : Session (Desk W)) (hst : st ∈ s.parts i) :
    st.Answers (Desk.Log K C H) (arrived (own i xs)) :=
  server_answers Desk.Log.fresh (fun _ _ _ _ _ _ _ _ h hans => h.answer hans) hroom hrun hst

/-! ### Two connections -/

/-- A registration, from uid 7. -/
def registration : List UInt8 := (framing sixWords.range).encodeAll (twoFrames.take 1)

/-- Two connections register, the first in two parts with the second between them. -/
def twoClients : List (Fin 2 × Incoming) :=
  [(0, .listener (fun _ => 0) fun _ => 0), (1, .listener (fun _ => 0) fun _ => 0),
    (0, .conn .read), (0, .conn (.turn (registration.take 10) true)), (0, .conn (.turn [] true)),
    (1, .conn .read), (1, .conn (.turn registration false)), (1, .conn (.turn [] true)),
    (0, .conn .read), (0, .conn (.turn (registration.drop 10) true))]

theorem everyone_answered_two :
    ∃ (s : Connections (Fin 2) (Desk Unit) Unit) (st : Session (Desk Unit)),
      run (partyStep (connStep .little sixWords.range
        (answer sixWords headsUp (plainHost shortStack)) .fresh)) (Connections.start ())
          twoClients = some s ∧ st ∈ s.parts 0 ∧
      st.Answers (Desk.Log sixWords headsUp (plainHost shortStack))
        (arrived (own 0 twoClients)) := by
  refine ⟨_, _, rfl, rfl, ?_⟩
  refine everyone_answered .little sixWords headsUp (plainHost shortStack) () twoClients _ ?_ rfl 0
    _ rfl
  refine server_guarded _ _ _ _ _ _ _ rfl ?_ ?_
  · decide
  · refine Fin.forall_fin_two.mpr ⟨?_, ?_⟩
    · rintro st hst
      obtain rfl := Option.some.inj hst
      decide
    · rintro st hst
      obtain rfl := Option.some.inj hst
      decide

end Holdem.Decide
