import Holdem.Session.Dispatch
import Holdem.Session.Room
import Holdem.Support.Runs

/-!
# Session — Inbound

What the peer sends, as far as `process`.  `conn_read_callback` reads the input in chunks of at most
8192 bytes and calls `append` and `dispatch` once for each (`feed`).

`Delivered` is inbound delivery: at every point the calls of `process` are those for the first
frames of the stream, these frames and the live bytes are what was received, the session is not shut
down, and at the end every frame was processed.  `append` keeps its part only while there is room
for the chunk, and whether there is room is settled by the lengths of the frames and of the chunks
(`ChunksFit`): the tail drifts to the end of the buffer, and nothing but a lucky compaction brings
it back.  A stream of at most 128 KiB always fits (`chunksFit_of_total_le`).
-/

namespace Holdem
open Support

/-- `char data[8192]` of `conn_read_callback`. -/
def readSize : Nat := 8192

/-- A call of `process`. -/
structure Call where
  header : MsgHeader
  data : List UInt8
  deriving DecidableEq, Repr

/-- The call of `process` a frame asks for. -/
def Frame.call {cmds : CmdRange} (f : Frame cmds) : Call := ⟨f.header, f.body⟩

/-- The receiving side of a session: its read buffer, the calls of `process` so far, what was
received so far, and whether the session was shut down. -/
structure Inbound where
  buffer : SessionBuffer
  calls : List Call
  received : List UInt8
  shut : Bool

/-- `process`, recording its calls. -/
def record (header : MsgHeader) (data : List UInt8) (calls : List Call) : List Call :=
  calls ++ [⟨header, data⟩]

/-- The receiving side of a fresh session. -/
def Inbound.start (mem : Memory UInt8) : Inbound := ⟨.new mem, [], [], false⟩

/-- A chunk as `conn_read_callback` hands it on: `append(chunk); dispatch()`.  What `append` returns
is ignored.  After a shutdown there is no session to call. -/
def feed (o : HostOrder) (cmds : CmdRange) (st : Inbound) (chunk : List UInt8) : Option Inbound :=
  if st.shut then none
  else do
    let (_, b) ← st.buffer.append chunk
    let (shut, b, calls) ← dispatch o cmds record b st.calls
    some ⟨b, calls, st.received ++ chunk, shut⟩

variable {o : HostOrder} {cmds : CmdRange}

/-- At one point of the stream: the calls are those for the first frames, and these frames and the
live bytes are what was received. -/
def Delivering (frames : List (Frame cmds)) (st : Inbound) : Prop :=
  st.shut = false ∧ ∃ j, st.calls = (frames.take j).map Frame.call ∧
    (framing cmds).encodeAll (frames.take j) ++ st.buffer.live = st.received

/-- Inbound delivery of the frames, cut into these chunks, on a fresh session. -/
def Delivered (o : HostOrder) (mem : Memory UInt8) (frames : List (Frame cmds))
    (chunks : List (List UInt8)) : Prop :=
  Throughout (feed o cmds) (Delivering frames) (.start mem) chunks ∧
    ∀ st, run (feed o cmds) (.start mem) chunks = some st → st.calls = frames.map Frame.call

/-- Every chunk has room: the frames have the lengths `lens`, the tail stands at `tail`, and
`received` bytes came so far, of which those of the frame begun are still live. -/
def ChunksFit (lens : List Nat) : Nat → Nat → List Nat → Prop
  | _, _, []                => True
  | tail, received, c :: cs =>
    let p : Offsets := ⟨tail - leftover lens received, tail⟩
    p.Room capacity c ∧ ChunksFit lens (p.push capacity c).tail (received + c) cs

instance (lens : List Nat) : ∀ tail received cs, Decidable (ChunksFit lens tail received cs)
  | _, _, []                => isTrue trivial
  | tail, received, c :: cs =>
    have := instDecidableChunksFit lens
      (Offsets.push capacity ⟨tail - leftover lens received, tail⟩ c).tail (received + c) cs
    inferInstanceAs (Decidable (_ ∧ _))

/-! ### Calls and their lengths -/

theorem processAll_record (fs : List (Frame cmds)) (calls : List Call) :
    processAll record fs calls = calls ++ fs.map Frame.call := by
  induction fs generalizing calls with
  | nil => exact (List.append_nil calls).symm
  | cons f fs ih =>
      have h : processAll record (f :: fs) calls = processAll record fs (calls ++ [f.call]) := rfl
      rw [h, ih, List.append_assoc]
      rfl

/-- How long the frames are that ask for these calls. -/
def callsLength (calls : List Call) : Nat :=
  (calls.map fun c => MsgHeader.size + c.data.length).sum

theorem length_encodeAll (fs : List (Frame cmds)) :
    ((framing cmds).encodeAll fs).length = callsLength (fs.map Frame.call) := by
  induction fs with
  | nil => rfl
  | cons f fs ih =>
      have hb : f.bytes.length = MsgHeader.size + f.body.length := f.length_bytes.trans f.len_eq
      have hc : (framing cmds).encodeAll (f :: fs) = f.bytes ++ (framing cmds).encodeAll fs := rfl
      rw [hc, List.length_append, ih, hb]
      rfl

theorem callsLength_append (cs ds : List Call) :
    callsLength (cs ++ ds) = callsLength cs + callsLength ds := by
  simp only [callsLength, List.map_append, List.sum_append]

/-! ### The invariant -/

/-- The stream was delivered so far and the chunks to come are the rest of it: the received bytes
parse to the calls made, and leave what is live. -/
structure InboundInv (frames : List (Frame cmds)) (st : Inbound) (rest : List (List UInt8)) :
    Prop where
  cap : st.buffer.mCapacity = capacity
  open_ : st.shut = false
  stream : st.received ++ rest.flatten = (framing cmds).encodeAll frames
  calls : st.calls = ((framing cmds).parse st.received).frames.map Frame.call
  live : st.buffer.live = ((framing cmds).parse st.received).rest
  chunk : ∀ c ∈ rest, 0 < c.length ∧ c.length ≤ readSize

namespace InboundInv

variable {frames : List (Frame cmds)} {st : Inbound} {rest : List (List UInt8)}

theorem start (mem : Memory UInt8) (hcut : rest.flatten = (framing cmds).encodeAll frames)
    (hchunk : ∀ c ∈ rest, 0 < c.length ∧ c.length ≤ readSize) :
    InboundInv frames (.start mem) rest where
  cap := rfl
  open_ := rfl
  stream := hcut
  calls := by rw [Inbound.start, Framing.parse_nil]; rfl
  live := by rw [Inbound.start, Framing.parse_nil]; rfl
  chunk := hchunk

theorem received_prefix (h : InboundInv frames st rest) :
    st.received <+: (framing cmds).encodeAll frames := ⟨rest.flatten, h.stream⟩

/-- What is live is the frame begun. -/
theorem bufSize_eq (h : InboundInv frames st rest) :
    st.buffer.bufSize =
      leftover (frames.map fun f => f.bytes.length) st.received.length := by
  have hlen := Framing.length_rest_of_prefix h.received_prefix
  rwa [← h.live, SessionBuffer.length_live] at hlen

/-- The frame begun is shorter than the longest frame. -/
theorem bufSize_lt (h : InboundInv frames st rest) : st.buffer.bufSize < maxPackSize := by
  have hmore := Framing.head_rest (Framing.parse_prefix_encodeAll h.received_prefix).1
  have hlt := length_lt_of_frameHead_more hmore
  rwa [← h.live, SessionBuffer.length_live] at hlt

/-- The offsets of the buffer, from the lengths alone. -/
theorem offsets_eq (h : InboundInv frames st rest) :
    st.buffer.offsets = ⟨st.buffer.mTail -
      leftover (frames.map fun f => f.bytes.length) st.received.length, st.buffer.mTail⟩ := by
  have hle := st.buffer.head_le
  rw [← h.bufSize_eq]
  ext1
  · simp only [SessionBuffer.offsets, SessionBuffer.bufSize]
    omega
  · rfl

/-- The invariant is inbound delivery up to this point. -/
theorem delivering (h : InboundInv frames st rest) : Delivering frames st := by
  obtain ⟨-, hpre⟩ := Framing.parse_prefix_encodeAll h.received_prefix
  have hsound := (framing cmds).parse_sound st.received
  rw [List.prefix_iff_eq_take.mp hpre] at hsound
  refine ⟨h.open_, ((framing cmds).parse st.received).frames.length, ?_, ?_⟩
  · exact h.calls.trans (congrArg _ (List.prefix_iff_eq_take.mp hpre))
  · rw [h.live]
    exact hsound

/-- With room for the chunk, it is received and what it completes is processed. -/
theorem feed_of_room {chunk : List UInt8} (h : InboundInv frames st (chunk :: rest))
    (hroom : st.buffer.offsets.Room capacity chunk.length) :
    ∃ st', feed o cmds st chunk = some st' ∧ InboundInv frames st' rest ∧
      st'.buffer.mTail = (st.buffer.offsets.push capacity chunk.length).tail ∧
      st'.received = st.received ++ chunk := by
  have hlt := h.bufSize_lt
  obtain ⟨hpos, hle⟩ := h.chunk chunk List.mem_cons_self
  have hstream : (st.received ++ chunk) ++ rest.flatten = (framing cmds).encodeAll frames := by
    rw [List.append_assoc]
    exact h.stream
  have hbad := (Framing.parse_prefix_encodeAll ⟨rest.flatten, hstream⟩).1
  have hparse := Framing.parse_append (Framing.parse_prefix_encodeAll h.received_prefix).1 chunk
  have hcap : st.buffer.bufSize + chunk.length ≤ st.buffer.mCapacity := by
    rw [h.cap]
    simp only [capacity, maxPackSize, readSize] at *
    omega
  obtain ⟨b, happ, hlive, hoff, hbcap⟩ :=
    SessionBuffer.append_of_room (h.cap ▸ hroom) hcap
  obtain ⟨b', hdis, hlive', htail, hcap'⟩ : ∃ b', dispatch o cmds record b st.calls = _ ∧ _ :=
    dispatch_eq b st.calls
  rw [hlive, h.live] at hdis hlive'
  have hfeed : feed o cmds st chunk = some ⟨b', processAll record
      ((framing cmds).parse (((framing cmds).parse st.received).rest ++ chunk)).frames st.calls,
      st.received ++ chunk,
      ((framing cmds).parse (((framing cmds).parse st.received).rest ++ chunk)).bad⟩ := by
    simp only [feed, h.open_, Bool.false_eq_true, if_false, happ, hdis, Option.bind_eq_bind,
      Option.bind_some]
  rw [hparse] at hbad
  refine ⟨_, hfeed, ?_, ?_, rfl⟩
  · exact {
      cap := (hcap'.trans hbcap).trans h.cap
      open_ := hbad
      stream := hstream
      calls := by rw [processAll_record, h.calls, hparse, List.map_append]
      live := by rw [hparse]; exact hlive'
      chunk := fun c hc => h.chunk c (List.mem_cons_of_mem _ hc) }
  · rw [← h.cap, ← hoff]
    exact htail

/-- Without room for it, the chunk is not received as sent: the frames processed and the live bytes
do not add up to what came in. -/
theorem not_delivering_of_not_room {chunk : List UInt8} {st' : Inbound}
    (h : InboundInv frames st (chunk :: rest))
    (hroom : ¬ st.buffer.offsets.Room capacity chunk.length)
    (hfeed : feed o cmds st chunk = some st') : ¬ Delivering frames st' := by
  rintro ⟨-, j, hcalls, hsum⟩
  simp only [feed, h.open_, Bool.false_eq_true, if_false] at hfeed
  cases happ : st.buffer.append chunk with
  | none => rw [happ] at hfeed; cases hfeed
  | some p =>
      obtain ⟨r, b⟩ := p
      obtain ⟨b', hdis, hlive', -, -⟩ : ∃ b', dispatch o cmds record b st.calls = _ ∧ _ :=
        dispatch_eq b st.calls
      simp only [happ, hdis, Option.bind_eq_bind, Option.bind_some, Option.some.injEq] at hfeed
      subst hfeed
      have hsize := SessionBuffer.bufSize_append_of_not_room (h.cap ▸ hroom) happ
      -- count the bytes: those of the calls, and the live ones, before and after
      have hbefore := congrArg List.length ((framing cmds).parse_sound st.received)
      have hafter := congrArg List.length ((framing cmds).parse_sound b.live)
      have htotal := congrArg List.length hsum
      simp only [List.length_append, length_encodeAll, ← hcalls, processAll_record,
        callsLength_append, ← h.calls, ← h.live, ← hlive', SessionBuffer.length_live] at *
      omega

end InboundInv

/-! ### Exactly when the stream is delivered -/

variable {frames : List (Frame cmds)}

/-- The guard of a chunk: there is room for it. -/
def ChunkRoom (st : Inbound) (chunk : List UInt8) : Prop :=
  st.buffer.offsets.Room capacity chunk.length

theorem throughout_iff_chunkRoom {st : Inbound} {rest : List (List UInt8)}
    (h : InboundInv frames st rest) :
    Throughout (feed o cmds) (Delivering frames) st rest ↔
      Guarded (feed o cmds) ChunkRoom st rest := by
  refine throughout_iff_guarded (P := InboundInv frames) (fun _ _ h => h.delivering) ?_ ?_ h
  · intro st chunk rest h hroom
    obtain ⟨st', hfeed, hinv, -, -⟩ := h.feed_of_room (o := o) hroom
    exact ⟨st', hfeed, hinv⟩
  · intro st chunk rest st' h hroom hfeed
    exact h.not_delivering_of_not_room hroom hfeed

/-- Whether there is room for every chunk is settled by the lengths. -/
theorem chunkRoom_iff_chunksFit {st : Inbound} {rest : List (List UInt8)}
    (h : InboundInv frames st rest) :
    Guarded (feed o cmds) ChunkRoom st rest ↔
      ChunksFit (frames.map fun f => f.bytes.length) st.buffer.mTail st.received.length
        (rest.map List.length) := by
  induction rest generalizing st with
  | nil => exact Iff.rfl
  | cons chunk rest ih =>
      simp only [Guarded, ChunksFit, List.map_cons, ChunkRoom, ← h.offsets_eq]
      refine and_congr_right fun hroom => ?_
      obtain ⟨st', hfeed, hinv, htail, hrec⟩ := h.feed_of_room (o := o) hroom
      rw [← htail, ← List.length_append, ← hrec, ← ih hinv]
      refine ⟨fun hall => hall st' hfeed, fun hg u hu => ?_⟩
      cases hfeed.symm.trans hu
      exact hg

/-- In a run whose chunks all had room, every frame was processed. -/
theorem calls_of_guarded {st t : Inbound} {rest : List (List UInt8)} (h : InboundInv frames st rest)
    (hg : Guarded (feed o cmds) ChunkRoom st rest) (hrun : run (feed o cmds) st rest = some t) :
    t.calls = frames.map Frame.call := by
  induction rest generalizing st with
  | nil =>
      cases hrun
      have hstream := h.stream
      rw [List.flatten_nil, List.append_nil] at hstream
      have hall := Framing.parse_encodeAll (F := framing cmds) frames []
      rw [List.append_nil, Framing.parse_nil, List.append_nil] at hall
      rw [h.calls, hstream, hall]
  | cons chunk rest ih =>
      obtain ⟨st', hfeed, hinv, -, -⟩ := h.feed_of_room (o := o) hg.1
      rw [run_cons hfeed] at hrun
      exact ih hinv (hg.2 st' hfeed) hrun

theorem chunksFit_of_delivered {mem : Memory UInt8} {chunks : List (List UInt8)}
    (hcut : chunks.flatten = (framing cmds).encodeAll frames)
    (hchunk : ∀ c ∈ chunks, 0 < c.length ∧ c.length ≤ readSize)
    (h : Delivered o mem frames chunks) :
    ChunksFit (frames.map fun f => f.bytes.length) 0 0 (chunks.map List.length) := by
  have hinv := InboundInv.start mem hcut hchunk
  exact (chunkRoom_iff_chunksFit hinv).mp ((throughout_iff_chunkRoom hinv).mp h.1)

theorem delivered_of_chunksFit {mem : Memory UInt8} {chunks : List (List UInt8)}
    (hcut : chunks.flatten = (framing cmds).encodeAll frames)
    (hchunk : ∀ c ∈ chunks, 0 < c.length ∧ c.length ≤ readSize)
    (h : ChunksFit (frames.map fun f => f.bytes.length) 0 0 (chunks.map List.length)) :
    Delivered o mem frames chunks := by
  have hinv := InboundInv.start mem hcut hchunk
  have hg : Guarded (feed o cmds) ChunkRoom (.start mem) chunks :=
    (chunkRoom_iff_chunksFit hinv).mpr h
  exact ⟨(throughout_iff_chunkRoom hinv).mpr hg, fun st hrun => calls_of_guarded hinv hg hrun⟩

/-- A stream that never reaches the end of the block fits. -/
theorem chunksFit_of_total_le {lens : List Nat} {tail received : Nat} {cs : List Nat}
    (h : tail + cs.sum ≤ capacity) : ChunksFit lens tail received cs := by
  induction cs generalizing tail received with
  | nil => trivial
  | cons c cs ih =>
      rw [List.sum_cons] at h
      have hfit : tail + c ≤ capacity := by omega
      refine ⟨Or.inl hfit, ?_⟩
      rw [Offsets.push, if_pos hfit]
      exact ih (by rwa [Nat.add_assoc])

/-- **Exactly when the stream is delivered.**  Well-formed frames, cut into chunks as
`conn_read_callback` reads them, are delivered exactly when every chunk has room. -/
theorem delivered_iff_chunksFit (o : HostOrder) (mem : Memory UInt8) (frames : List (Frame cmds))
    (chunks : List (List UInt8)) (hcut : chunks.flatten = (framing cmds).encodeAll frames)
    (hchunk : ∀ c ∈ chunks, 0 < c.length ∧ c.length ≤ readSize) :
    Delivered o mem frames chunks ↔
      ChunksFit (frames.map fun f => f.bytes.length) 0 0 (chunks.map List.length) :=
  ⟨chunksFit_of_delivered hcut hchunk, delivered_of_chunksFit hcut hchunk⟩

/-! ### A connection that lives long enough -/

/-- A frame as long as one read. -/
def fullFrame : Frame sixCommands where
  header := ⟨8192, 1, 0, 0⟩
  body := List.replicate 8172 0
  accepted := by decide
  len_eq := by rw [List.length_replicate]; rfl

theorem length_fullFrame : fullFrame.bytes.length = readSize := fullFrame.length_bytes

/-- Sixteen full frames, each read at once, fill the block to the end. -/
theorem delivered_sixteen :
    Delivered .little (fun _ => 0) (List.replicate 16 fullFrame)
      (List.replicate 16 fullFrame.bytes) := by
  refine (delivered_iff_chunksFit .little (fun _ => 0) (List.replicate 16 fullFrame)
    (List.replicate 16 fullFrame.bytes) (by rfl) ?_).mpr ?_
  · intro c hc
    rw [List.eq_of_mem_replicate hc, length_fullFrame]
    decide
  · simp only [List.map_replicate, length_fullFrame]
    decide

/-- Of seventeen full frames, each read at once, the last is refused: the tail stands at the end of
the block, with nothing live. -/
theorem not_delivered_seventeen :
    ¬ Delivered .little (fun _ => 0) (List.replicate 17 fullFrame)
      (List.replicate 17 fullFrame.bytes) := by
  intro h
  have hfit := chunksFit_of_delivered (by rfl) (by
    intro c hc
    rw [List.eq_of_mem_replicate hc, length_fullFrame]
    decide) h
  simp only [List.map_replicate, length_fullFrame] at hfit
  exact absurd hfit (by decide)

end Holdem
