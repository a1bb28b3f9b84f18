import NetEngine.Bench.ConsumeProperties
import NetEngine.Bench.SendProperties
import NetEngine.Epoll.BothServers
import NetEngine.Epoll.TickDelivery
import NetEngine.Library.FrameStream

/-! The two programs on the two ends of a connection: what the load generator sends is what
`server.cpp` handles, and what the server queues is what the load generator reads, however
the kernels in between cut it. -/

set_option autoImplicit false

namespace NetEngine.Epoll.Server

open Socket

/-! ## The frames of a stream -/

def queuedNote {ρ : Type} (fd : Fd) (frames : List (UInt16 × Bytes)) :
    Obs ρ → List (UInt16 × Bytes)
  | .accepted other => if other = fd then [] else frames
  | .append other type payload => if other = fd then frames ++ [(type, payload)] else frames
  | _ => frames

/-- The frames queued for the connection that was last accepted under a descriptor. -/
def queuedFrames {ρ : Type} (fd : Fd) (trace : List (Obs ρ)) : List (UInt16 × Bytes) :=
  trace.foldl (queuedNote fd) []

theorem stream_queued {ρ : Type} (fd : Fd) (trace : List (Obs ρ)) :
    (stream fd trace).queued = Framing.encodeAll (queuedFrames fd trace) := by
  have walk : ∀ (trace : List (Obs ρ)) (st : Stream) (frames : List (UInt16 × Bytes)),
      st.queued = Framing.encodeAll frames →
      (trace.foldl (Stream.note fd) st).queued =
        Framing.encodeAll (trace.foldl (queuedNote fd) frames) := by
    intro trace
    induction trace with
    | nil => exact fun _ _ same => same
    | cons obs trace ih =>
        intro st frames same
        refine ih (st.note fd obs) (queuedNote fd frames obs) ?_
        cases obs with
        | accepted other =>
            simp only [Stream.note, queuedNote]
            split
            · rfl
            · exact same
        | append other type payload =>
            simp only [Stream.note, queuedNote]
            split
            · simp [same]
            · exact same
        | send other sent how =>
            simp only [Stream.note, queuedNote]
            split <;> exact same
        | _ => exact same
  exact walk trace {} [] rfl

theorem queuedFrames_under {ρ : Type} {limit : Nat} {fd : Fd} {trace : List (Obs ρ)}
    (under : ∀ obs ∈ trace, obs.Under limit) :
    ∀ frame ∈ queuedFrames fd trace, frame.2.length ≤ limit := by
  have walk : ∀ (trace : List (Obs ρ)) (frames : List (UInt16 × Bytes)),
      (∀ obs ∈ trace, obs.Under limit) → (∀ frame ∈ frames, frame.2.length ≤ limit) →
      ∀ frame ∈ trace.foldl (queuedNote fd) frames, frame.2.length ≤ limit := by
    intro trace
    induction trace with
    | nil => exact fun _ _ small => small
    | cons obs trace ih =>
        intro frames under small
        refine ih _ (fun other member => under other (List.mem_cons_of_mem _ member)) ?_
        have own := under obs List.mem_cons_self
        cases obs with
        | accepted other =>
            simp only [queuedNote]
            split
            · exact fun _ member => (List.not_mem_nil member).elim
            · exact small
        | append other type payload =>
            simp only [queuedNote]
            split
            · intro frame member
              rcases List.mem_append.mp member with before | last
              · exact small frame before
              · rw [List.mem_singleton.mp last]
                exact own
            · exact small
        | _ => exact small
  exact walk trace [] under fun _ member => (List.not_mem_nil member).elim

/-! ## The sizes of all frames -/

theorem Keeps.and {k : Kernel} {cfg : Config} {first second : World → Prop}
    (left : Keeps k cfg first) (right : Keeps k cfg second) :
    Keeps k cfg fun w => first w ∧ second w where
  quiet w after quiet both := ⟨left.quiet w after quiet both.1, right.quiet w after quiet both.2⟩
  mark w obs marks both := ⟨left.mark w obs marks both.1, right.mark w obs marks both.2⟩
  erase w fd size both := ⟨left.erase w fd size both.1, right.erase w fd size both.2⟩
  receive w fd c chunk found short both :=
    ⟨left.receive w fd c chunk found short both.1, right.receive w fd c chunk found short both.2⟩
  packet w fd c type payload sound found opened both :=
    ⟨left.packet w fd c type payload sound found opened both.1,
      right.packet w fd c type payload sound found opened both.2⟩
  accept w fd sound absent room both :=
    ⟨left.accept w fd sound absent room both.1, right.accept w fd sound absent room both.2⟩
  depart w fd c sound found both :=
    ⟨left.depart w fd c sound found both.1, right.depart w fd c sound found both.2⟩
  lists w doomed dirty running both :=
    ⟨left.lists w doomed dirty running both.1, right.lists w doomed dirty running both.2⟩

/-- No frame is larger than the largest tick frame. -/
def Sized (w : World) : Prop := ∀ obs ∈ w.trace, obs.Under tickCap

namespace Sized

open World

variable {k : Kernel} {cfg : Config} {w after : World}

theorem grow (sized : Sized w) (grows : Grows (Obs.Under maxPayload) w.state after.state) :
    Sized after := by
  obtain ⟨more, grown, under⟩ := grows
  intro obs member
  have grown : after.trace = w.trace ++ more := grown
  rw [grown] at member
  rcases List.mem_append.mp member with before | new
  · exact sized obs before
  · have own := under obs new
    cases obs with
    | append fd type payload => exact Nat.le_trans own (by decide)
    | _ => trivial

theorem note (sized : Sized w) {obs : Obs Bytes} (under : obs.Under maxPayload) :
    Sized (w.emit obs) :=
  sized.grow ⟨[obs], rfl, fun _ member => List.mem_singleton.mp member ▸ under⟩

theorem keeps (k : Kernel) (cfg : Config) : Keeps k cfg Sized where
  quiet _ _ quiet sized := sized.grow quiet.under
  mark w obs marks sized := by
    refine sized.note ?_
    cases obs <;> trivial
  erase _ _ _ sized := sized
  receive w fd _ chunk _ _ sized := sized.note (show (Obs.recv fd chunk).Under maxPayload from trivial)
  packet w fd c type payload sound found _ sized := by
    obtain ⟨packet, _⟩ := @handlePacket_packet k cfg (w.emit (.packet w.clients fd type payload)) fd c
      type payload (sound.emit _).agree found
    exact grow (@note w sized (.packet w.clients fd type payload) trivial) packet.under
  accept w fd _ _ _ sized := sized.note (show (Obs.accepted fd).Under maxPayload from trivial)
  depart w fd c sound found sized := by
    obtain ⟨departs, _⟩ := @depart_departs k cfg (w.emit (.departs w.clients fd)) fd c
      (sound.emit _).agree found
    have left : Sized ((w.emit (.departs w.clients fd)).depart k cfg fd c) :=
      grow (@note w sized (.departs w.clients fd) trivial) departs.under
    exact left.note (show (Obs.closed fd).Under maxPayload from trivial)
  lists _ _ _ _ sized := sized

/-- A tick frame is the buffer of a room. -/
theorem tick (sized : Sized w) (sound : Sound w) (tidy : Tidy cfg w) :
    Sized (w.flushTickRooms k cfg) := by
  obtain ⟨more, grown, hands⟩ := @flushTickRooms_hands k cfg w sound.agree tidy.buffers.keys
  intro obs member
  rw [grown] at member
  rcases List.mem_append.mp member with before | new
  · exact sized obs before
  · cases obs with
    | append fd type payload =>
        have handed : (type, payload) ∈ appendsTo fd more :=
          List.mem_filterMap.mpr ⟨_, new, by simp⟩
        rw [hands, World.handed] at handed
        split at handed
        · cases handed
        · split at handed
          · cases handed
          · rw [State.handed] at handed
            split at handed
            · rw [List.mem_singleton, Prod.mk.injEq] at handed
              rw [handed.2]
              exact tidy.buffers.tickEntry_short
            · cases handed
    | _ => trivial

theorem run (k : Kernel) (cfg : Config) (batches : List Batch) : Sized (World.run k cfg batches) :=
  (((Tidy.keeps k cfg).and (keeps k cfg)).run
    (fun _ sound both => ⟨both.1.tick, both.2.tick sound both.1⟩)
    ⟨.init, fun _ member => (List.not_mem_nil member).elim⟩ batches).2

end Sized

end NetEngine.Epoll.Server

namespace NetEngine.Epoll

open Bench (Sender SendCall study putHeader Tally Note)
open Bench.Slot (Feed)

/-! ## From the server to the load generator -/

/-- The stream of a connection, as far as the kernel took it, is the start of its frames, each
of which has room in a slot. -/
theorem queued_stream (k : Kernel) (cfg : Server.Config) (batches : List Batch)
    {seen : List (Obs Bytes)} (begins : seen <+: (Server.World.run k cfg batches).trace) (fd : Fd) :
    (stream fd seen).sent <+: Framing.encodeAll (Server.queuedFrames fd seen) ∧
      ∀ frame ∈ Server.queuedFrames fd seen, frame.2.length ≤ Bench.Slot.roomiest := by
  have throughout := ((Server.World.run_runs k cfg batches).throughout .init).prefixed seen begins fd
  rw [Server.stream_queued] at throughout
  refine ⟨throughout, Server.queuedFrames_under fun obs member => ?_⟩
  have sized := Server.Sized.run k cfg batches obs (begins.subset member)
  cases obs with
  | append _ _ _ => exact Nat.le_trans sized (by decide)
  | _ => trivial

/-- A load generator reads the frames of a stream, however the stream is cut. -/
theorem frames_read {frames : List (UInt16 × Bytes)}
    (small : ∀ frame ∈ frames, frame.2.length ≤ Bench.Slot.roomiest) (node : UInt32)
    {pieces : List Bytes} (arrived : pieces.flatten <+: Framing.encodeAll frames) :
    ∃ done, Framing.Cut frames pieces.flatten
        ⟨done, (Feed.run study node {} pieces).slot.buffered, false⟩ ∧
      (Feed.run study node {} pieces).tally = Tally.after {} (Note.ofFrames study node done) ∧
      ∀ call ∈ (Feed.run study node {} pieces).calls, ∀ read ∈ call.2, read.1 + read.2 ≤ call.1 := by
  have cut := Framing.parse_cut small (by decide) arrived
  obtain ⟨kept, counted, inside⟩ :=
    (@Feed.Ok.start study node).run rfl pieces (by simpa using cut.fitting)
  rw [List.nil_append] at kept counted
  refine ⟨(Framing.parse Bench.Slot.roomiest pieces.flatten).frames, ?_, counted, inside⟩
  rw [kept, ← cut.fitting]
  exact cut

/-- At any moment of a run no queued frame is too large for a slot. Whatever the kernel took of
the stream of a connection, and however it arrives at the load generator, the frames that were
queued are read one after another, and the slot holds the start of the next one, with room left. -/
theorem queued_frames_read (k : Kernel) (cfg : Server.Config) (batches : List Batch)
    (seen : List (Obs Bytes)) (begins : seen <+: (Server.World.run k cfg batches).trace) (fd : Fd) :
    (∀ frame ∈ Server.queuedFrames fd seen,
      (Framing.encode frame.1 frame.2).length ≤ Bench.rxCap) ∧
    ∀ (node : UInt32) (pieces : List Bytes), pieces.flatten <+: (stream fd seen).sent →
      Feed.Fits study node {} pieces →
      (∃ done, Framing.Cut (Server.queuedFrames fd seen) pieces.flatten
          ⟨done, (Feed.run study node {} pieces).slot.buffered, false⟩ ∧
        (Feed.run study node {} pieces).tally = Tally.after {} (Note.ofFrames study node done)) ∧
      (Feed.run study node {} pieces).slot.buffered.length < Bench.rxCap ∧
      ∀ call ∈ (Feed.run study node {} pieces).calls,
        call.1 ≤ Bench.rxCap ∧ ∀ read ∈ call.2, read.1 + read.2 ≤ call.1 := by
  obtain ⟨stream, small⟩ := queued_stream k cfg batches begins fd
  have room : ∀ frame ∈ Server.queuedFrames fd seen,
      (Framing.encode frame.1 frame.2).length ≤ Bench.rxCap := fun frame member => by
    have own := small frame member
    rw [Framing.encode_length, show Bench.rxCap = Framing.headerSize + Bench.Slot.roomiest by decide]
    omega
  refine ⟨room, fun node pieces arrived fits => ?_⟩
  obtain ⟨done, cut, counted, inside⟩ := frames_read small node (arrived.trans stream)
  refine ⟨⟨done, cut, counted⟩, cut.rest_short (by decide) room, fun call member =>
    ⟨?_, inside call member⟩⟩
  exact Bench.Slot.Feed.run_calls pieces fits (fun _ none => (List.not_mem_nil none).elim) call member

/-- The answer to a `c_chat` from outside of any room, in two pieces. -/
def helloPieces : List Bytes :=
  [(Framing.encode sNotice joinFirst).take 3, (Framing.encode sNotice joinFirst).drop 3]

theorem queued_frames_read_hello :
    (∃ done, Framing.Cut
        (Server.queuedFrames 5 (Server.World.run Server.World.eager ⟨true, false, 1⟩
          [Server.World.helloBatch]).trace) helloPieces.flatten
        ⟨done, (Feed.run study 0 {} helloPieces).slot.buffered, false⟩ ∧
      (Feed.run study 0 {} helloPieces).tally = Tally.after {} (Note.ofFrames study 0 done)) ∧
    (Feed.run study 0 {} helloPieces).slot.buffered.length < Bench.rxCap ∧
    ∀ call ∈ (Feed.run study 0 {} helloPieces).calls,
      call.1 ≤ Bench.rxCap ∧ ∀ read ∈ call.2, read.1 + read.2 ≤ call.1 := by
  have frame : helloPieces.flatten = Framing.encodeAll [(sNotice, joinFirst)] := by decide
  have small : ∀ frame ∈ [(sNotice, joinFirst)], frame.2.length ≤ Bench.Slot.roomiest := by decide
  refine (queued_frames_read Server.World.eager ⟨true, false, 1⟩ [Server.World.helloBatch] _
    (List.prefix_refl _) 5).2 0 helloPieces (by decide) ?_
  refine (@Feed.Ok.start study 0).fits rfl helloPieces ?_ (by decide)
  rw [List.nil_append, frame, Framing.parse_encodeAll small (by decide)]

/-! ## From the load generator to the server -/

def request (frame : UInt16 × Bytes) : Bytes := putHeader study frame.1 frame.2.length ++ frame.2

theorem flatten_requests (requests : List (UInt16 × Bytes)) :
    (requests.map request).flatten = Framing.encodeAll requests := by
  rw [← List.flatMap_def]
  rfl

/-- What a server handles of a sender's requests: a prefix, and while it serves the connection
all that have arrived whole. -/
structure Handled (requests : List (UInt16 × Bytes)) (inbound : Inbound) : Prop where
  inOrder : inbound.handed <+: requests
  accepted : inbound.oversize = false
  whole : inbound.stopped = false →
    ∃ rest, Framing.Cut requests inbound.received ⟨inbound.handed, rest, false⟩

theorem FramesParsed.handles {ρ : Type} {state : State ρ} (parsed : FramesParsed state) {fd : Fd}
    {requests : List (UInt16 × Bytes)} (small : ∀ frame ∈ requests, frame.2.length ≤ maxPayload)
    (arrived : (inbound fd state.trace).received <+: Framing.encodeAll requests) :
    Handled requests (inbound fd state.trace) := by
  have cut := Framing.parse_cut small (show maxPayload < 2 ^ 16 by decide) arrived
  obtain ⟨begins, whole, oversize⟩ := parsed.parsed fd
  obtain ⟨later, frames, _⟩ := cut.frames
  refine ⟨begins.trans ⟨later, frames.symm⟩, ?_, fun serving => ?_⟩
  · cases beyond : (inbound fd state.trace).oversize with
    | false => rfl
    | true =>
        have wrong := (oversize.mp beyond).2
        rw [Inbound.parse, cut.fitting] at wrong
        cases wrong
  · refine ⟨(inbound fd state.trace).parse.rest, ?_⟩
    rw [whole serving, ← cut.fitting]
    exact cut

/-- Frames that `send_frame` was given, through whatever partial sends, and as much of the
kernel's bytes as have arrived, in whatever pieces: both servers handle those frames. -/
theorem requests_handled (k : Kernel) (batches : List Batch) (fd : Fd) (calls : List SendCall)
    (requests : List (UInt16 × Bytes)) (usable : (Sender.run calls).usable = true)
    (framed : (Sender.run calls).frames = requests.map request)
    (small : ∀ frame ∈ requests, frame.2.length ≤ maxPayload) :
    (∀ cfg : Server.Config,
      (inbound fd (Server.World.run k cfg batches).trace).received <+: (Sender.run calls).accepted →
      Handled requests (inbound fd (Server.World.run k cfg batches).trace)) ∧
    ∀ cfg : ServerSds.Config,
      (inbound fd (ServerSds.World.run k cfg batches).trace).received <+: (Sender.run calls).accepted →
      Handled requests (inbound fd (ServerSds.World.run k cfg batches).trace) := by
  have whole : (Sender.run calls).Whole :=
    Machine.run_keeps Sender.step_whole (fun _ => ⟨rfl, .inl rfl⟩) calls usable
  have accepted : (Sender.run calls).accepted <+: Framing.encodeAll requests :=
    ⟨(Sender.run calls).pending, by rw [whole.stream, framed, flatten_requests]⟩
  refine ⟨fun cfg arrived => ?_, fun cfg arrived => ?_⟩
  · exact (Server.World.run_runs k cfg batches).framesParsed.handles small (arrived.trans accepted)
  · exact (ServerSds.World.run_runs k cfg batches).framesParsed.handles small (arrived.trans accepted)

theorem requests_handled_hello :
    Handled [(cChat, ascii "hi")] (inbound 5 (Server.World.run Server.World.eager ⟨true, false, 1⟩
      [Server.World.helloBatch]).trace) :=
  (requests_handled Server.World.eager [Server.World.helloBatch] 5
    [.frame (request (cChat, ascii "hi")) [.took 4], .flush [.took 2]] [(cChat, ascii "hi")]
    (by decide) (by decide) (by decide)).1 ⟨true, false, 1⟩ (by decide)

end NetEngine.Epoll
