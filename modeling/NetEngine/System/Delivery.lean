import NetEngine.Epoll.Progress
import NetEngine.System.Conversation

/-! The way of a chat behind `handle_packet`: over the queue of each listener and the kernel
into the load generator, which reads every line that it is due, once and in order. -/

set_option autoImplicit false

namespace NetEngine.Epoll

open Server (queuedNote queuedFrames)
open Bench (study Tally Note)
open Bench.Slot (Feed)

variable {ρ : Type}

/-! ## What a connection hears -/

instance [DecidableEq ρ] (clients : Fd → Option (Client ρ)) (room : ρ) (line : Bytes) (fd : Fd) :
    Decidable (Hears clients room line fd) :=
  match found : clients fd with
  | none => isFalse fun hears => by
      obtain ⟨_, client, present, _⟩ := hears
      rw [found] at present
      cases present
  | some client =>
      decidable_of_iff (line.length ≤ maxPayload ∧ client.closing = false ∧ client.room = some room ∧
        client.pending.length + headerSize + line.length ≤ sendCap) (by simp [Hears, found])

/-- The line that a packet brings to a connection. -/
def Obs.heard [DecidableEq ρ] (fd : Fd) : Obs ρ → Option Bytes
  | .packet clients sender type payload =>
      match clients sender with
      | none => none
      | some client =>
          match client.room with
          | none => none
          | some room =>
              if type = cChat ∧ Hears clients room (chatLine client.nick payload) fd then
                some (chatLine client.nick payload)
              else none
  | _ => none

def heardNote [DecidableEq ρ] (fd : Fd) (lines : List Bytes) : Obs ρ → List Bytes
  | .accepted other => if other = fd then [] else lines
  | obs => lines ++ (obs.heard fd).toList

/-- What the connection that was last accepted under a descriptor is due of the chats. -/
def heardLines [DecidableEq ρ] (fd : Fd) (trace : List (Obs ρ)) : List Bytes :=
  trace.foldl (heardNote fd) []

def chats (frames : List (UInt16 × Bytes)) : List Bytes :=
  (frames.filter fun frame => frame.1 = sChat).map (·.2)

@[simp] theorem chats_append (frames more : List (UInt16 × Bytes)) :
    chats (frames ++ more) = chats frames ++ chats more := by
  simp [chats]

section Lines

variable [DecidableEq ρ] {fd : Fd} {trace more : List (Obs ρ)}

@[simp] theorem heardLines_snoc (obs : Obs ρ) :
    heardLines fd (trace ++ [obs]) = heardNote fd (heardLines fd trace) obs := by
  simp [heardLines]

theorem heardLines_sending (sending : ∀ obs ∈ more, obs.Sending fun _ => True) :
    heardLines fd (trace ++ more) = heardLines fd trace := by
  induction more using List.reverseRecOn with
  | nil => rw [List.append_nil]
  | append_singleton more last ih =>
      have own := sending last (List.mem_append_right _ (List.mem_singleton.mpr rfl))
      rw [← List.append_assoc, heardLines_snoc,
        ih fun obs member => sending obs (List.mem_append_left _ member)]
      cases last <;> first | exact own.elim | simp [heardNote, Obs.heard]

omit [DecidableEq ρ]

@[simp] theorem queuedFrames_snoc (obs : Obs ρ) :
    queuedFrames fd (trace ++ [obs]) = queuedNote fd (queuedFrames fd trace) obs := by
  simp [queuedFrames]

theorem queuedFrames_sending (sending : ∀ obs ∈ more, obs.Sending fun _ => True) :
    queuedFrames fd (trace ++ more) = queuedFrames fd trace ++ appendsTo fd more := by
  induction more using List.reverseRecOn with
  | nil => simp [appendsTo]
  | append_singleton more last ih =>
      have own := sending last (List.mem_append_right _ (List.mem_singleton.mpr rfl))
      rw [← List.append_assoc, queuedFrames_snoc,
        ih fun obs member => sending obs (List.mem_append_left _ member), appendsTo_append,
        ← List.append_assoc]
      cases last with
      | append other type payload =>
          simp only [queuedNote, appendsTo]
          split <;> simp_all
      | _ => first | exact own.elim | simp [queuedNote, appendsTo]

theorem queuedFrames_later (same : .accepted fd ∉ more) :
    queuedFrames fd trace <+: queuedFrames fd (trace ++ more) := by
  induction more using List.reverseRecOn with
  | nil => simp
  | append_singleton more last ih =>
      rw [← List.append_assoc, queuedFrames_snoc]
      refine (ih fun among => same (List.mem_append_left _ among)).trans ?_
      cases last with
      | accepted other =>
          have apart : other ≠ fd := by
            rintro rfl
            exact same (List.mem_append_right _ (List.mem_singleton.mpr rfl))
          simp [queuedNote, apart]
      | append other type payload =>
          simp only [queuedNote]
          split
          · exact List.prefix_append ..
          · exact List.prefix_refl _
      | _ => simp [queuedNote]

theorem Remains.queuedFrames {start final : List (Obs ρ)} (remains : Remains fd start final) :
    Server.queuedFrames fd start <+: Server.queuedFrames fd final := by
  obtain ⟨⟨more, rfl, same⟩, _⟩ := remains
  exact queuedFrames_later same

end Lines

/-- A packet queues for a connection just the line that it brings to it. -/
theorem Does.chats [DecidableEq ρ] {type : UInt16} {clients : Fd → Option (Client ρ)} {fd : Fd}
    {payload : Bytes} {body : List (Obs ρ)} (does : Does type clients fd payload body) (other : Fd) :
    chats (appendsTo other body) = ((Obs.packet clients fd type payload).heard other).toList := by
  obtain ⟨_, chat, silent⟩ := does
  by_cases isChat : type = cChat
  · obtain ⟨⟨client, found, _⟩, heard, others, alone⟩ := chat isChat
    cases inRoom : client.room with
    | none =>
        have none : chatsTo other body = [] := chatsTo_quiet (alone client found inRoom).2
        change (chatsTo other body).map (·.2) = _
        simp [none, Obs.heard, found, inRoom]
    | some room =>
        by_cases hears : Hears clients room (chatLine client.nick payload) other
        · rw [heard client room found inRoom other hears]
          simp [Epoll.chats, Obs.heard, found, inRoom, isChat, hears]
        · rw [others client room found inRoom other hears]
          simp [Epoll.chats, Obs.heard, found, inRoom, hears]
  · have none : chatsTo other body = [] := chatsTo_quiet (silent isChat)
    change (chatsTo other body).map (·.2) = _
    rw [none]
    simp only [Obs.heard, isChat, false_and, if_false]
    split
    · rfl
    · split <;> rfl

/-- The chats that were queued for a connection are the lines that it was due. -/
theorem Bracketed.chats [DecidableEq ρ] {trace : List (Obs ρ)} (bracketed : Bracketed trace) (fd : Fd) :
    chats (queuedFrames fd trace) = heardLines fd trace := by
  induction bracketed with
  | nil => rfl
  | @quiet trace obs _ quiet ih =>
      rw [queuedFrames_snoc, heardLines_snoc, ← ih]
      cases obs with
      | packet _ _ _ _ | handled _ _ => exact quiet.elim
      | accepted other =>
          simp only [queuedNote, heardNote]
          split <;> rfl
      | append other type payload =>
          have silent : type ≠ sChat := quiet
          simp only [queuedNote, heardNote, Obs.heard, Option.toList_none, List.append_nil]
          split
          · simp [Epoll.chats, silent]
          · rfl
      | _ => simp [queuedNote, heardNote, Obs.heard]
  | @packet trace body clients sender type payload closing _ does ih =>
      have sending := does.1
      rw [queuedFrames_snoc, heardLines_snoc, List.append_cons, queuedFrames_sending sending,
        heardLines_sending sending, queuedFrames_snoc, heardLines_snoc]
      simp only [queuedNote, heardNote, chats_append, does.chats, ih]
      simp [Obs.heard]

/-! ## What it reads -/

/-- As long as the kernel reports and takes, a load generator that stays reads every line it is
due, in the order of the packets, none twice and none that no packet brought. -/
theorem chats_read (k : Kernel) (succeeds : ∀ clock, k.modify clock = true) (cfg : Server.Config)
    (plain : cfg.coalesce = false) (early : List Batch) (rounds : List (List Batch)) (fd : Fd)
    (node : UInt32) (pieces : List Bytes)
    (fair : FairTo fd (fun batches => (Server.World.run k cfg batches).state) early rounds)
    (running : (Server.World.run k cfg (early ++ rounds.flatten)).running = true)
    (remains : Remains fd (Server.World.run k cfg early).trace
      (Server.World.run k cfg (early ++ rounds.flatten)).trace)
    (enough : ∀ c, (Server.World.run k cfg early).conns fd = some c → c.out.length ≤ rounds.length)
    (arrived : pieces.flatten =
      (stream fd (Server.World.run k cfg (early ++ rounds.flatten)).trace).sent) :
    ∃ done, Framing.Cut
        (queuedFrames fd (Server.World.run k cfg (early ++ rounds.flatten)).trace) pieces.flatten
        ⟨done, (Feed.run study node {} pieces).slot.buffered, false⟩ ∧
      (Feed.run study node {} pieces).tally = Tally.after {} (Note.ofFrames study node done) ∧
      heardLines fd (Server.World.run k cfg early).trace <+: chats done ∧
      chats done <+: heardLines fd (Server.World.run k cfg (early ++ rounds.flatten)).trace := by
  have loop := Server.World.run_loop k cfg
  have modifies : ∀ done, (Server.rules k cfg).modifies done → done = true := by
    rintro done ⟨clock, rfl⟩
    exact succeeds clock
  have waits : ∀ client, (Server.World.run k cfg early).state.clients fd = some client →
      client.pending.length ≤ rounds.length := by
    intro client found
    obtain ⟨c, held, rfl⟩ := Option.map_eq_some_iff.mp found
    exact enough c held
  have drained := loop.sends modifies rounds fair running remains waits
  obtain ⟨stream, small⟩ := queued_stream k cfg (early ++ rounds.flatten) (List.prefix_refl _) fd
  obtain ⟨done, cut, counted, _⟩ := frames_read small node (arrived ▸ stream)
  have lines (batches : List Batch) : chats (queuedFrames fd (Server.World.run k cfg batches).trace) =
      heardLines fd (Server.World.run k cfg batches).trace :=
    ((Server.World.run_runs k cfg batches).bracketed plain).chats fd
  refine ⟨done, cut, counted, ?_, ?_⟩
  · have begins : queuedFrames fd (Server.World.run k cfg early).trace <+: done := by
      refine cut.covers ?_ ?_
      · exact remains.queuedFrames
      · rw [← Server.stream_queued, arrived]
        exact drained
    rw [← lines early]
    exact (begins.filter _).map _
  · obtain ⟨later, split, _⟩ := cut.frames
    rw [← lines, split, chats_append]
    exact List.prefix_append ..

/-- The kernel takes all but the last byte of what waits for the listener, and that in a round
later. -/
def talkRun : Server.World :=
  .run (stingy 3 48) ⟨true, false, 2⟩ [Server.World.talkBatch, writableBatch 6]

def talkStream : Bytes := (stream 6 talkRun.trace).sent

/-- It is read in two pieces. -/
theorem chats_read_talk :
    ∃ done, Framing.Cut (queuedFrames 6 talkRun.trace)
        [talkStream.take 20, talkStream.drop 20].flatten
        ⟨done, (Feed.run study 0 {} [talkStream.take 20, talkStream.drop 20]).slot.buffered, false⟩ ∧
      (Feed.run study 0 {} [talkStream.take 20, talkStream.drop 20]).tally =
        Tally.after {} (Note.ofFrames study 0 done) ∧
      [ascii "a: hi"] <+: chats done ∧ chats done <+: [ascii "a: hi"] := by
  have later : talkRun.trace =
      (Server.World.run (stingy 3 48) ⟨true, false, 2⟩ [Server.World.talkBatch]).trace ++
        [.wake, .send 6 (ascii "i") .drained, .mask 6 false true] := by
    rfl
  have reported : Reported 6 (writableBatch 6)
      (Server.World.run (stingy 3 48) ⟨true, false, 2⟩ [Server.World.talkBatch]).state
      talkRun.state := by
    refine ⟨fun _ _ _ => ⟨_, List.mem_singleton.mpr rfl, rfl, rfl, rfl⟩, fun more grown => ?_⟩
    obtain rfl := List.append_cancel_left (later.symm.trans grown)
    have taken : sentTo 6 ([.wake, .send 6 (ascii "i") .drained, .mask 6 false true] :
        List (Obs Bytes)) = [ascii "i"] := rfl
    rw [taken]
    decide
  refine chats_read (stingy 3 48) (fun _ => rfl) ⟨true, false, 2⟩ rfl [Server.World.talkBatch]
    [[writableBatch 6]] 6 0 _ (fairTo_one reported) rfl ⟨⟨_, later, ?_⟩, rfl⟩ ?_ ?_
  · simp
  · intro c found
    obtain rfl := Option.some.inj found
    decide
  · rw [List.flatten_cons, List.flatten_singleton, List.take_append_drop]
    rfl

end NetEngine.Epoll
