import Holdem.Session.Dispatch
import Holdem.Session.Outbound

/-!
# Session — Lifecycle

The callbacks of a connection, with every operation on the handle and on its bufferevent on record.
libevent calls back only on a bufferevent that was not freed, one callback at a time.  A step is the
call of a callback, or one turn of the loop of `conn_read_callback`.

`Safe` says of a record that nothing follows a release.  `safe_iff_clean` is the exact condition: no
turn of the read loop lets `dispatch` meet a malformed header.  Where it meets one, `shutdown`
releases the session, and `conn_read_callback` goes on with `handle->sendData()`.
-/

namespace Holdem
open Support

/-- An operation on the handle. -/
inductive HandleOp
  | append | dispatch | process | shutdown | sendData | toString
  deriving DecidableEq, Repr

/-- An operation on the bufferevent. -/
inductive EventOp
  | getfd | get_input | read | get_output | write
  deriving DecidableEq, Repr

/-- What a callback does to the session. -/
inductive Event
  | handle (op : HandleOp)
  | bufferevent (op : EventOp)
  /-- The bufferevent is freed and the handle deleted. -/
  | release
  deriving DecidableEq, Repr

/-- Nothing follows a release. -/
def Safe : List Event → Prop
  | []            => True
  | .release :: l => l = []
  | _ :: l        => Safe l

instance : ∀ l, Decidable (Safe l)
  | []                   => isTrue trivial
  | .release :: l        => inferInstanceAs (Decidable (l = []))
  | .handle _ :: l       => instDecidableSafe l
  | .bufferevent _ :: l  => instDecidableSafe l

/-- A session and its record.  The handlers act on the sending side and on a state of their own. -/
structure Session (T : Type*) where
  readBuffer : SessionBuffer
  out : Outbound
  handlers : T
  /-- `conn_read_callback` is running. -/
  reading : Bool
  /-- The running callback never returns, or goes on where nothing is defined. -/
  hung : Bool
  released : Bool
  record : List Event

/-- What a call of `process` does to the sending side and to the handlers' own state. -/
abbrev Handlers (T : Type*) := MsgHeader → List UInt8 → Outbound × T → Outbound × T

/-- What libevent makes the session do. -/
inductive Callback
  /-- `conn_read_callback` is called. -/
  | read
  /-- A turn of its loop, with the bytes `bufferevent_read` returns (none when the input is empty)
  and whether `bufferevent_write` succeeds. -/
  | turn (chunk : List UInt8) (written : Bool)
  /-- `conn_write_callback` is called. -/
  | write
  /-- `conn_event_callback` is called. -/
  | event

variable {T : Type*}

namespace Session

/-- `listener_callback`: a fresh session. -/
def start (mem mem' : Memory UInt8) (t : T) : Session T where
  readBuffer := .new mem
  out := .start mem'
  handlers := t
  reading := false
  hung := false
  released := false
  record := []

/-- The session, with more on its record. -/
def note (st : Session T) (es : List Event) : Session T := { st with record := st.record ++ es }

/-- The session can be called back. -/
def idle (st : Session T) : Bool := !st.reading && !st.hung && !st.released

/-- What `sendData` does to the session, by what is in the write buffer. -/
def sendEvents (out : Outbound) : List Event :=
  if out.buffer.bufSize = 0 then [.handle .sendData]
  else [.handle .sendData, .bufferevent .write]

end Session

/-- `SessionHandle::shutdown`. -/
def shutdown (st : Session T) : Session T :=
  { st.note [.handle .shutdown, .release] with
    readBuffer := st.readBuffer.clear
    out := { st.out with buffer := st.out.buffer.clear }
    released := true }

/-- What `process` does, with its call on record. -/
def recorded (process : Handlers T) (header : MsgHeader) (data : List UInt8) :
    (Outbound × T) × List Event → (Outbound × T) × List Event
  | (s, es) => (process header data s, es ++ [.handle .process])

/-- The `append`, `dispatch` and `sendData` of `conn_read_callback`, on a chunk that was read. -/
def readTurn (o : HostOrder) (cmds : CmdRange) (process : Handlers T) (st : Session T)
    (chunk : List UInt8) (written : Bool) : Session T :=
  match st.readBuffer.append chunk with
  | none        => { st.note [.handle .append] with hung := true }
  | some (_, b) =>
    match dispatch o cmds (recorded process) b ((st.out, st.handlers), []) with
    | none => { st.note [.handle .append, .handle .dispatch] with hung := true }
    | some (shut, b, (out, t), es) =>
      let st := { st with readBuffer := b, out := out, handlers := t }
      let st := st.note ([.handle .append, .handle .dispatch] ++ es)
      -- nothing tells the caller of `dispatch` that the handle is gone
      if shut then (shutdown st).note [.handle .sendData]
      else { st.note (Session.sendEvents out) with out := sendData out written }

/-- A step of the session. -/
def callback (o : HostOrder) (cmds : CmdRange) (process : Handlers T) (st : Session T) :
    Callback → Option (Session T)
  | .read  =>
    if st.idle then some { st.note [.bufferevent .getfd] with reading := true } else none
  | .turn chunk written =>
    if st.reading && !st.hung then
      -- what a freed bufferevent gives is not defined
      if st.released then some { st.note [.bufferevent .get_input] with hung := true }
      else if chunk = [] then some { st.note [.bufferevent .get_input] with reading := false }
      else some (readTurn o cmds process
        (st.note [.bufferevent .get_input, .bufferevent .read]) chunk written)
    else none
  | .write =>
    if st.idle then
      some (st.note [.bufferevent .getfd, .handle .toString, .bufferevent .get_output])
    else none
  | .event =>
    if st.idle then some { st.note [.bufferevent .getfd, .release] with released := true } else none

/-! ### Records -/

theorem safe_append {l m : List Event} (hl : Event.release ∉ l) : Safe (l ++ m) ↔ Safe m := by
  induction l with
  | nil => exact Iff.rfl
  | cons e l ih =>
      have ih := ih fun h => hl (List.mem_cons_of_mem _ h)
      cases e with
      | release => exact absurd List.mem_cons_self hl
      | handle op => exact ih
      | bufferevent op => exact ih

/-- What is not safe does not become so. -/
theorem safe_of_append {l m : List Event} (h : Safe (l ++ m)) : Safe l := by
  induction l with
  | nil => trivial
  | cons e l ih =>
      cases e with
      | release => exact (List.append_eq_nil_iff.mp h).1
      | handle op => exact ih h
      | bufferevent op => exact ih h

theorem safe_of_not_mem {l : List Event} (h : Event.release ∉ l) : Safe l := by
  rw [← List.append_nil l, safe_append h]
  trivial

theorem release_not_mem_sendEvents (out : Outbound) : Event.release ∉ Session.sendEvents out := by
  rw [Session.sendEvents]
  split <;> decide

/-! ### A turn of the read loop -/

variable {o : HostOrder} {cmds : CmdRange} {process : Handlers T}

/-- `dispatch` puts only calls of `process` on record. -/
theorem release_not_mem_processAll (process : Handlers T) (fs : List (Frame cmds))
    {s : (Outbound × T) × List Event} (h : Event.release ∉ s.2) :
    Event.release ∉ (processAll (recorded process) fs s).2 := by
  induction fs generalizing s with
  | nil => exact h
  | cons f fs ih =>
      refine ih fun hm => ?_
      rcases List.mem_append.mp hm with hs | hs
      · exact h hs
      · cases List.mem_singleton.mp hs

/-- No malformed header comes up once the chunk is appended. -/
def CleanChunk (cmds : CmdRange) (b : SessionBuffer) (chunk : List UInt8) : Prop :=
  ∀ r b', b.append chunk = some (r, b') → ((framing cmds).parse b'.live).bad = false

/-- What a turn puts on record: up to `dispatch` and through its calls of `process` nothing is
released, and if a malformed header comes up, the session is released and used again. -/
theorem readTurn_cases (o : HostOrder) (cmds : CmdRange) (process : Handlers T) (st : Session T)
    (chunk : List UInt8) (written : Bool) :
    ∃ es, Event.release ∉ es ∧
      (CleanChunk cmds st.readBuffer chunk ∧
          (readTurn o cmds process st chunk written).record = st.record ++ es ∧
          (readTurn o cmds process st chunk written).released = st.released ∨
        ¬ CleanChunk cmds st.readBuffer chunk ∧
          (readTurn o cmds process st chunk written).record =
            st.record ++ (es ++ [.release, .handle .sendData])) := by
  cases happ : st.readBuffer.append chunk with
  | none =>
      refine ⟨[.handle .append], by decide, Or.inl ⟨?_, ?_, ?_⟩⟩
      · intro r b' h
        rw [happ] at h
        cases h
      · simp only [readTurn, happ, Session.note]
      · simp only [readTurn, happ, Session.note]
  | some p =>
      obtain ⟨r, b⟩ := p
      obtain ⟨b', hdis, -, -, -⟩ : ∃ b', dispatch o cmds (recorded process) b
          ((st.out, st.handlers), []) = _ ∧ _ := dispatch_eq b _
      have hes := release_not_mem_processAll process
        ((framing cmds).parse b.live).frames (s := ((st.out, st.handlers), [])) List.not_mem_nil
      revert hdis hes
      generalize processAll (recorded process) ((framing cmds).parse b.live).frames
        ((st.out, st.handlers), []) = p
      obtain ⟨⟨out, t⟩, es⟩ := p
      intro hdis hes
      cases hbad : ((framing cmds).parse b.live).bad with
      | false =>
          refine ⟨[.handle .append, .handle .dispatch] ++ es ++ Session.sendEvents out, ?_,
            Or.inl ⟨?_, ?_, ?_⟩⟩
          · simp only [List.mem_append, not_or]
            exact ⟨⟨by decide, hes⟩, release_not_mem_sendEvents out⟩
          · intro r' b'' h
            cases happ.symm.trans h
            exact hbad
          · simp only [readTurn, happ, hdis, hbad, Session.note, Bool.false_eq_true, if_false,
              List.append_assoc]
          · simp only [readTurn, happ, hdis, hbad, Session.note, Bool.false_eq_true, if_false]
      | true =>
          refine ⟨[.handle .append, .handle .dispatch] ++ es ++ [.handle .shutdown], ?_,
            Or.inr ⟨?_, ?_⟩⟩
          · simp only [List.mem_append, not_or]
            exact ⟨⟨by decide, hes⟩, by decide⟩
          · intro h
            cases hbad.symm.trans (h r b happ)
          · simp only [readTurn, happ, hdis, hbad, shutdown, Session.note, if_true,
              List.append_assoc, List.cons_append, List.nil_append]

/-! ### Exactly when the record is safe -/

/-- The guard of a step: the chunk of a turn brings up no malformed header. -/
def Clean (cmds : CmdRange) (st : Session T) : Callback → Prop
  | .turn chunk _ => chunk ≠ [] → CleanChunk cmds st.readBuffer chunk
  | _             => True

/-- A session before its release has none on record, and one that was released is not being read. -/
structure LifecycleInv (st : Session T) : Prop where
  held : st.released = false → Event.release ∉ st.record
  done : st.released = true → st.reading = false
  safe : Safe st.record

theorem LifecycleInv.start (mem mem' : Memory UInt8) (t : T) :
    LifecycleInv (Session.start mem mem' t) where
  held := fun _ => List.not_mem_nil
  done := fun h => by cases h
  safe := trivial

/-- A session that is idle was not released. -/
theorem Session.idle_iff {st : Session T} :
    st.idle = true ↔ st.reading = false ∧ st.hung = false ∧ st.released = false := by
  simp only [Session.idle, Bool.and_eq_true, Bool.not_eq_true', and_assoc]

/-- A session that is being read was not released. -/
theorem LifecycleInv.held_of_reading {st : Session T} (h : LifecycleInv st)
    (hread : st.reading = true) : st.released = false := by
  refine Bool.eq_false_of_not_eq_true fun hrel => ?_
  cases hread.symm.trans (h.done hrel)

/-- More on the record of a session that was not released, without a release. -/
theorem LifecycleInv.note {st st' : Session T} {es : List Event} (h : LifecycleInv st)
    (hrel : st.released = false) (hes : Event.release ∉ es) (hrec : st'.record = st.record ++ es)
    (hrel' : st'.released = false) : LifecycleInv st' := by
  have hnot : Event.release ∉ st'.record := by
    rw [hrec, List.mem_append]
    rintro (hm | hm)
    · exact h.held hrel hm
    · exact hes hm
  refine ⟨fun _ => hnot, fun hr => ?_, safe_of_not_mem hnot⟩
  cases hrel'.symm.trans hr

theorem LifecycleInv.step {st st' : Session T} {c : Callback} (h : LifecycleInv st)
    (hclean : Clean cmds st c) (hstep : callback o cmds process st c = some st') :
    LifecycleInv st' := by
  cases c with
  | read =>
      simp only [callback, Option.ite_none_right_eq_some, Session.idle_iff] at hstep
      obtain ⟨⟨-, -, hrel⟩, hst'⟩ := hstep
      cases hst'
      exact h.note hrel (by decide) rfl hrel
  | write =>
      simp only [callback, Option.ite_none_right_eq_some, Session.idle_iff] at hstep
      obtain ⟨⟨-, -, hrel⟩, hst'⟩ := hstep
      cases hst'
      exact h.note hrel (by decide) rfl hrel
  | event =>
      simp only [callback, Option.ite_none_right_eq_some, Session.idle_iff] at hstep
      obtain ⟨⟨hread, -, hrel⟩, hst'⟩ := hstep
      cases hst'
      refine ⟨fun hr => ?_, fun _ => hread, ?_⟩
      · cases hr
      · exact (safe_append (h.held hrel)).mpr rfl
  | turn chunk written =>
      simp only [callback, Option.ite_none_right_eq_some, Bool.and_eq_true] at hstep
      obtain ⟨⟨hread, -⟩, hst'⟩ := hstep
      have hrel := h.held_of_reading hread
      rw [if_neg (by rw [hrel]; decide)] at hst'
      split at hst'
      · cases hst'
        exact h.note hrel (by decide) rfl hrel
      · rename_i hne
        cases hst'
        obtain ⟨es, hes, ⟨-, hrec, hrel'⟩ | ⟨hbad, -⟩⟩ := readTurn_cases o cmds process
          (st.note [.bufferevent .get_input, .bufferevent .read]) chunk written
        · refine h.note hrel ?_ (hrec.trans (List.append_assoc ..)) (hrel'.trans hrel)
          rw [List.mem_append, not_or]
          exact ⟨by decide, hes⟩
        · exact absurd (hclean hne) hbad

/-- The record only grows. -/
theorem record_prefix {st st' : Session T} {c : Callback}
    (hstep : callback o cmds process st c = some st') : st.record <+: st'.record := by
  cases c with
  | read | write | event =>
      simp only [callback, Option.ite_none_right_eq_some] at hstep
      obtain ⟨-, hst'⟩ := hstep
      cases hst'
      exact List.prefix_append _ _
  | turn chunk written =>
      simp only [callback, Option.ite_none_right_eq_some] at hstep
      obtain ⟨-, hst'⟩ := hstep
      split at hst'
      · cases hst'
        exact List.prefix_append _ _
      · split at hst'
        · cases hst'
          exact List.prefix_append _ _
        · cases hst'
          obtain ⟨es, -, ⟨-, hrec, -⟩ | ⟨-, hrec⟩⟩ := readTurn_cases o cmds process
            (st.note [.bufferevent .get_input, .bufferevent .read]) chunk written
          all_goals
            rw [hrec, Session.note, List.append_assoc]
            exact List.prefix_append _ _

/-- A malformed header gets the session released and used again. -/
theorem not_safe_of_not_clean {st st' : Session T} {c : Callback} (h : LifecycleInv st)
    (hclean : ¬ Clean cmds st c) (hstep : callback o cmds process st c = some st') :
    ¬ Safe st'.record := by
  cases c with
  | read | write | event => exact absurd trivial hclean
  | turn chunk written =>
      obtain ⟨hne, hbad⟩ := Classical.not_imp.mp hclean
      simp only [callback, Option.ite_none_right_eq_some, Bool.and_eq_true] at hstep
      obtain ⟨⟨hread, -⟩, hst'⟩ := hstep
      have hrel := h.held_of_reading hread
      rw [if_neg (by rw [hrel]; decide), if_neg hne] at hst'
      cases hst'
      obtain ⟨es, hes, ⟨hgood, -⟩ | ⟨-, hrec⟩⟩ := readTurn_cases o cmds process
          (st.note [.bufferevent .get_input, .bufferevent .read]) chunk written
      · exact absurd hgood hbad
      · rw [hrec, Session.note, List.append_assoc, safe_append (h.held hrel),
          safe_append (by decide), safe_append hes]
        exact List.cons_ne_nil _ _

/-- **Exactly when the lifecycle is respected.**  Along a run of callbacks on a fresh session,
nothing follows a release exactly when no chunk brings up a malformed header. -/
theorem safe_iff_clean (o : HostOrder) (cmds : CmdRange) (process : Handlers T)
    (mem mem' : Memory UInt8) (t : T) (cs : List Callback) (st : Session T)
    (hrun : run (callback o cmds process) (.start mem mem' t) cs = some st) :
    Safe st.record ↔ Guarded (callback o cmds process) (Clean cmds) (.start mem mem' t) cs :=
  run_iff_guarded (P := LifecycleInv) (Q := fun st => Safe st.record) (fun _ h => h.safe)
    (fun _ _ _ h hclean hstep => h.step hclean hstep)
    (fun _ _ _ h hclean hstep => not_safe_of_not_clean h hclean hstep)
    (fun _ _ _ h hstep hs' => h (by
      obtain ⟨l, hl⟩ := record_prefix hstep
      exact safe_of_append (hl ▸ hs')))
    (LifecycleInv.start mem mem' t) hrun

/-- A fresh session over zeroed blocks, whose handlers do nothing. -/
def idleSession : Session Unit := .start (fun _ => 0) (fun _ => 0) ()

/-- Twenty zero bytes: the length field is below twenty. -/
def zeroHeader : List UInt8 := List.replicate 20 0

/-- The peer connects, sends nothing and closes. -/
theorem clean_close :
    Guarded (callback .little sixCommands fun _ _ s => s) (Clean sixCommands) idleSession
      [.read, .turn [] true, .event] :=
  (safe_iff_clean .little sixCommands (fun _ _ s => s) (fun _ => 0) (fun _ => 0) ()
    [.read, .turn [] true, .event] _ rfl).mp (by decide)

/-- The peer sends a header of zeros. -/
theorem not_safe_zeroHeader :
    ∃ st, run (callback .little sixCommands fun _ _ s => s) idleSession
        [.read, .turn zeroHeader true] = some st ∧
      st.record = [.bufferevent .getfd, .bufferevent .get_input, .bufferevent .read,
        .handle .append, .handle .dispatch, .handle .shutdown, .release, .handle .sendData] ∧
      ¬ Safe st.record :=
  ⟨_, rfl, rfl, by decide⟩

end Holdem
