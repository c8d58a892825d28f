import Holdem.Session.Connection
import Holdem.Support.Parties

/-!
# Session — Server

All connections of the server.  One thread runs their callbacks, so that every interleaving of them
is a run of a family of sessions, which share what their handlers share (`connStep`).

* `server_answers`: whatever the others do, every connection answers the stream it received.
* `server_guarded`: there is room in every buffer as long as no stream has outgrown one.
* `same_answers`: a connection that is alone with its handlers answers the bytes it received,
  however they were cut, whichever writes failed, whatever `malloc` returned and on either host.
-/

namespace Holdem
open Support

variable {ι T W : Type*}

/-- What the server is made to do for one connection. -/
inductive Incoming
  /-- `listener_callback`: a new session, its buffers over whatever `malloc` returns. -/
  | listener (mem mem' : Memory UInt8)
  | conn (c : Callback)

/-- What comes from the peer. -/
def Incoming.bytes : Incoming → List UInt8
  | .listener _ _ => []
  | .conn c       => c.bytes

/-- What came from the peer. -/
def arrived (as : List Incoming) : List UInt8 := as.flatMap Incoming.bytes

/-- A step for one connection.  Before the listener has accepted it there is no session. -/
def connStep (o : HostOrder) (cmds : CmdRange) (ans : Answering T W) (t : T) (w : W)
    (s : Option (Session T)) : Incoming → Option (Option (Session T) × W)
  | .listener mem mem' => if s.isSome then none else some (some (.start mem mem' t), w)
  | .conn c            =>
    s.bind fun st => (callbackWith o cmds ans w st c).map fun r => (some r.1, r.2)

/-- The connections, with what their handlers share. -/
abbrev Connections (ι T W : Type*) := Parties ι (Option (Session T)) W

/-- The server before its first connection. -/
def Connections.start (w : W) : Connections ι T W := ⟨fun _ => none, w⟩

/-- The guard of a step: there is room for the chunk and for the answers. -/
def ConnRoom (o : HostOrder) (cmds : CmdRange) (ans : Answering T W) (w : W)
    (s : Option (Session T)) : Incoming → Prop
  | .listener _ _ => True
  | .conn c       => ∀ st ∈ s, TurnRoom o cmds ans w st c

variable {o : HostOrder} {cmds : CmdRange} {ans : Answering T W} {t : T} {w : W}

/-! ### Every connection -/

/-- A property of the sessions, for a connection that may not be there yet. -/
def Connected (P : List UInt8 → Session T → Prop) (as : List Incoming) (s : Option (Session T)) :
    Prop :=
  (s = none → arrived as = []) ∧ ∀ st ∈ s, P (arrived as) st

/-- What a fresh session has and a callback keeps, a connection has. -/
theorem Connected.step {P : List UInt8 → Session T → Prop} {as : List Incoming} {a : Incoming}
    {s s' : Option (Session T)} {w' : W} (h : Connected P as s)
    (hstart : ∀ mem mem', P [] (.start mem mem' t))
    (hcallback : ∀ c st st', a = .conn c → s = some st → s' = some st' → P (arrived as) st →
      callbackWith o cmds ans w st c = some (st', w') → P (arrived as ++ c.bytes) st')
    (hstep : connStep o cmds ans t w s a = some (s', w')) : Connected P (as ++ [a]) s' := by
  have harrived : arrived (as ++ [a]) = arrived as ++ a.bytes := by
    rw [arrived, List.flatMap_append, List.flatMap_singleton]
    rfl
  rw [Connected, harrived]
  cases a with
  | listener mem mem' =>
      simp only [connStep, Option.ite_none_left_eq_some] at hstep
      obtain ⟨hnone, hs'⟩ := hstep
      cases hs'
      have hs : s = none := by
        cases s with
        | none => rfl
        | some st => exact absurd rfl hnone
      refine ⟨fun hn => (Option.some_ne_none _ hn).elim, fun st hst => ?_⟩
      cases hst
      rw [h.1 hs]
      exact hstart mem mem'
  | conn c =>
      simp only [connStep, Option.bind_eq_some_iff, Option.map_eq_some_iff] at hstep
      obtain ⟨st, rfl, r, hr, hs'⟩ := hstep
      cases hs'
      refine ⟨fun hn => (Option.some_ne_none _ hn).elim, fun st' hst' => ?_⟩
      cases hst'
      exact hcallback c st r.1 rfl rfl rfl (h.2 st rfl) hr

variable [DecidableEq ι] {s : Connections ι T W} {xs : List (ι × Incoming)}

/-- **Every connection is answered.**  In every interleaving, with room for the chunks and for the
answers, every connection answers the stream it received, whatever the others make of what the
handlers share. -/
theorem server_answers {L : List (Frame cmds) → List SendAct → T → Prop} (hL : L [] [] t)
    (hkeep : ∀ fs acts t w f acts' t' w', L fs acts t →
      ans f.header f.body t w = some (acts', t', w') → L (fs ++ [f]) (acts ++ acts') t')
    (hroom : Guarded (partyStep (connStep o cmds ans t)) (PartyGuard (ConnRoom o cmds ans))
      (Connections.start w) xs)
    (hrun : run (partyStep (connStep o cmds ans t)) (Connections.start w) xs = some s) {i : ι}
    {st : Session T} (hst : st ∈ s.parts i) : st.Answers L (arrived (own i xs)) := by
  have hall : Connected (fun rx st => st.Conversing L rx) (own i xs) (s.parts i) := by
    refine parts_invariant ?_ (fun _ => ⟨fun _ => rfl, fun st hst => by cases hst⟩) hroom hrun i
    intro as w s a s' w' h hguard hstep
    refine h.step (Session.Conversing.start hL) ?_ hstep
    rintro c st st' rfl rfl rfl hst hcallback
    exact hst.step (L := fun fs acts t _ => L fs acts t) hkeep (hguard st rfl) hcallback
  exact (hall.2 st hst).answers

/-- **Room.**  As long as no connection has received more than its read buffer holds, and none was
answered more than its write buffer holds, no `append` of any connection is refused, hangs or
damages what is live, in any interleaving. -/
theorem server_guarded (o : HostOrder) (cmds : CmdRange) (ans : Answering T W) (t : T) (w : W)
    (xs : List (ι × Incoming)) (s : Connections ι T W)
    (hrun : run (partyStep (connStep o cmds ans t)) (Connections.start w) xs = some s)
    (hrx : ∀ i, (arrived (own i xs)).length ≤ capacity)
    (hpacked : ∀ i, ∀ st ∈ s.parts i, st.out.packed.length ≤ capacity) :
    Guarded (partyStep (connStep o cmds ans t)) (PartyGuard (ConnRoom o cmds ans))
      (Connections.start w) xs := by
  refine parts_guarded (P := Connected fun rx st => st.Within cmds rx)
    (F := fun as s => (arrived as).length ≤ capacity ∧
      ∀ st ∈ s, st.out.packed.length ≤ capacity) ?_ ?_
    (fun _ => ⟨fun _ => rfl, fun st hst => by cases hst⟩) hrun fun i => ⟨hrx i, hpacked i⟩
  · rintro as w s a s' w' ⟨hrx, hpacked⟩ hstep
    constructor
    · rw [arrived, List.flatMap_append, List.length_append] at hrx
      exact Nat.le_of_add_right_le hrx
    · rintro st hst
      cases hst
      cases a with
      | listener mem mem' => cases hstep
      | conn c =>
          simp only [connStep, Option.bind_some, Option.map_eq_some_iff] at hstep
          obtain ⟨r, hr, hs'⟩ := hstep
          cases hs'
          exact Nat.le_trans (packed_of_callbackWith hr).length_le (hpacked r.1 rfl)
  · rintro as w s a s' w' h ⟨hrx, hpacked⟩ hstep
    rw [arrived, List.flatMap_append, List.flatMap_singleton] at hrx
    constructor
    · cases a with
      | listener mem mem' => trivial
      | conn c =>
          intro st hst
          cases hst
          simp only [connStep, Option.bind_some, Option.map_eq_some_iff] at hstep
          obtain ⟨r, hr, hs'⟩ := hstep
          cases hs'
          exact (h.2 st rfl).turnRoom hrx (hpacked r.1 rfl) hr
    · refine h.step (fun mem mem' => Session.Within.start mem mem' t) ?_ hstep
      rintro c st st' rfl rfl rfl hst hcallback
      exact hst.step hrx (hpacked st' rfl) hcallback

/-! ### A connection alone -/

/-- A callback of a connection that is alone with what its handlers act on. -/
def alone (o : HostOrder) (cmds : CmdRange) (ans : Answering T W) (s : Session T × W)
    (c : Callback) : Option (Session T × W) :=
  callbackWith o cmds ans s.2 s.1 c

/-- The guard of a callback: there is room for the chunk and for the answers. -/
def AloneRoom (o : HostOrder) (cmds : CmdRange) (ans : Answering T W) (s : Session T × W)
    (c : Callback) : Prop :=
  TurnRoom o cmds ans s.2 s.1 c

theorem received_concat (cs : List Callback) (c : Callback) :
    received (cs ++ [c]) = received cs ++ c.bytes := by
  rw [received, List.flatMap_append, List.flatMap_singleton]
  rfl

variable {mem mem' : Memory UInt8} {s : Session T × W} {cs : List Callback}

/-- Its answers are those to the frames received, one after the other. -/
theorem alone_answers
    (hroom : Guarded (alone o cmds ans) (AloneRoom o cmds ans) (.start mem mem' t, w) cs)
    (hrun : run (alone o cmds ans) (.start mem mem' t, w) cs = some s) :
    s.1.Answers
      (fun (fs : List (Frame cmds)) acts t' => answersOf ans fs t w = some (acts, t', s.2))
      (received cs) := by
  have hall : s.1.Conversing
      (fun (fs : List (Frame cmds)) acts t' => answersOf ans fs t w = some (acts, t', s.2))
      (received cs) := by
    refine history_invariant (P := fun cs s => s.1.Conversing
      (fun (fs : List (Frame cmds)) acts t' => answersOf ans fs t w = some (acts, t', s.2))
      (received cs)) ?_ (Session.Conversing.start rfl mem mem') hroom hrun
    intro cs s c s' h hguard hstep
    rw [received_concat]
    refine h.step (L := fun fs acts t' w' => answersOf ans fs t w = some (acts, t', w')) ?_ hguard
      hstep
    intro fs acts t₁ w₁ f acts' t₂ w₂ hfs hf
    simp only [answersOf_append, answersOf, hfs, hf, Option.bind_eq_bind, Option.bind_some,
      Option.map_some, List.append_nil]
  exact hall.answers

/-- There is room as long as neither stream has outgrown its buffer. -/
theorem alone_guarded (hrun : run (alone o cmds ans) (.start mem mem' t, w) cs = some s)
    (hrx : (received cs).length ≤ capacity) (hpacked : s.1.out.packed.length ≤ capacity) :
    Guarded (alone o cmds ans) (AloneRoom o cmds ans) (.start mem mem' t, w) cs := by
  refine history_guarded (P := fun cs s => s.1.Within cmds (received cs))
    (F := fun cs s => (received cs).length ≤ capacity ∧ s.1.out.packed.length ≤ capacity) ?_ ?_
    (Session.Within.start mem mem' t) hrun ⟨hrx, hpacked⟩
  · rintro cs s c s' ⟨hrx, hpacked⟩ hstep
    rw [received_concat, List.length_append] at hrx
    exact ⟨Nat.le_of_add_right_le hrx,
      Nat.le_trans (packed_of_callbackWith hstep).length_le hpacked⟩
  · rintro cs s c s' h ⟨hrx, hpacked⟩ hstep
    rw [received_concat] at hrx ⊢
    exact ⟨h.turnRoom hrx hpacked hstep, h.step hrx hpacked hstep⟩

/-- **The bytes alone.**  Of two runs of a connection that is alone, on hosts and over memory of
their own, one of which received as much as the other or less: what it packed is the first part of
what the other packed.  If both received the same, their handlers come to the same. -/
theorem same_answers (o o' : HostOrder) (cmds : CmdRange) (ans : Answering T W)
    (mem₁ mem₂ mem₃ mem₄ : Memory UInt8) (t : T) (w : W) (cs cs' : List Callback)
    (s s' : Session T × W)
    (hrun : run (alone o cmds ans) (.start mem₁ mem₂ t, w) cs = some s)
    (hroom : Guarded (alone o cmds ans) (AloneRoom o cmds ans) (.start mem₁ mem₂ t, w) cs)
    (hrun' : run (alone o' cmds ans) (.start mem₃ mem₄ t, w) cs' = some s')
    (hroom' : Guarded (alone o' cmds ans) (AloneRoom o' cmds ans) (.start mem₃ mem₄ t, w) cs')
    (hrx : received cs <+: received cs') :
    s.1.out.packed <+: s'.1.out.packed ∧
      (received cs = received cs' → s.1.handlers = s'.1.handlers ∧ s.2 = s'.2) := by
  obtain ⟨acts, hans, hpacked⟩ := (alone_answers hroom hrun).answered
  obtain ⟨acts', hans', hpacked'⟩ := (alone_answers hroom' hrun').answered
  constructor
  · obtain ⟨fs, hfs⟩ := Framing.frames_prefix (F := framing cmds) hrx
    rw [← hfs, answersOf_append, hans, Option.bind_some, Option.map_eq_some_iff] at hans'
    obtain ⟨q, -, hq⟩ := hans'
    rw [hpacked, hpacked', ← (Prod.mk.inj hq).1, framesOf_append]
    exact List.prefix_append _ _
  · intro heq
    rw [heq, hans', Option.some.injEq] at hans
    obtain ⟨-, hrest⟩ := Prod.mk.inj hans
    exact ⟨(Prod.mk.inj hrest).1.symm, (Prod.mk.inj hrest).2.symm⟩

/-- Handlers that send every body back, and count the frames. -/
def echo : Answering Nat Unit := fun header data n _ =>
  some ([.packSend header.m_nUid.toInt64 header.m_nCmd.toInt32 data], n + 1, ())

/-- A keep-alive of one byte, from uid 7. -/
def keepalive : List UInt8 :=
  [0, 0, 0, 21, 0, 0, 0, 3, 0, 0, 0, 0, 0, 0, 0, 7, 0, 0, 0, 0, 9]

/-- The frame comes in two parts, or at once on another host, where it cannot be sent yet. -/
theorem same_answers_parts :
    ∃ s s' : Session Nat × Unit,
      run (alone .little sixCommands echo) (.start (fun _ => 0) (fun _ => 0) 0, ())
        [.read, .turn (keepalive.take 10) true, .turn (keepalive.drop 10) true] = some s ∧
      run (alone .big sixCommands echo) (.start (fun _ => 1) (fun _ => 1) 0, ())
        [.read, .turn keepalive false] = some s' ∧
      s.1.out.packed <+: s'.1.out.packed ∧ s.1.handlers = s'.1.handlers := by
  refine ⟨_, _, rfl, rfl, ?_⟩
  have hsame := same_answers .little .big sixCommands echo (fun _ => 0) (fun _ => 0) (fun _ => 1)
    (fun _ => 1) 0 () [.read, .turn (keepalive.take 10) true, .turn (keepalive.drop 10) true]
    [.read, .turn keepalive false] _ _ rfl (alone_guarded rfl (by decide) (by decide)) rfl
    (alone_guarded rfl (by decide) (by decide)) (List.prefix_refl _)
  exact ⟨hsame.1, (hsame.2 rfl).1⟩

end Holdem
