import NetEngine.Epoll.ChatCap
import NetEngine.Epoll.ChatDelivery
import NetEngine.Epoll.ChatStream
import NetEngine.Epoll.JoinNotices
import NetEngine.Epoll.ServerRuns

/-! What the event loop guarantees, for `server.cpp`. -/

set_option autoImplicit false

namespace NetEngine.Epoll.Server

open Socket

namespace World

variable {k : Kernel} {cfg : Config}

/-! ## Chat delivery -/

/-- Each chat goes to who can hear it, once, and each `s_chat` frame is one of a
chat; a queue holds what was appended and not sent; chats keep their order. -/
structure ChatDelivery (w : World) : Prop where
  delivered : ChatsDelivered w.trace
  genuine : ChatsGenuine w.trace
  queued : ∀ fd c, w.conns fd = some c →
    (stream fd w.trace).queued = (stream fd w.trace).sent ++ c.out
  once : ∀ fd, (chatLog fd w.trace).heard.Pairwise (· < ·)
  ordered : ∀ mine yours,
    (chatLog mine w.trace).heard.filter (· ∈ (chatLog yours w.trace).heard) =
      (chatLog yours w.trace).heard.filter (· ∈ (chatLog mine w.trace).heard)

theorem run_streams (k : Kernel) (cfg : Config) (batches : List Batch) :
    Streams (run k cfg batches).state :=
  (run_runs k cfg batches).streams .init

/-- Chat delivery without coalescing, in every run and in both flush modes. -/
theorem chat_delivery (k : Kernel) (cfg : Config) (plain : cfg.coalesce = false)
    (batches : List Batch) : ChatDelivery (run k cfg batches) := by
  have bracketed : Bracketed (run k cfg batches).trace := (run_runs k cfg batches).bracketed plain
  refine ⟨bracketed.delivered, bracketed.genuine, fun fd c found => ?_,
    fun fd => (bracketed.ordered fd).increases,
    fun mine yours => common_order (bracketed.ordered mine).increases
      (bracketed.ordered yours).increases⟩
  obtain ⟨rest, whole, left⟩ := run_streams k cfg batches fd
  have queue : c.out = rest := left c.client (by simp [found])
  rw [queue]
  exact whole

/-- A kernel that takes everything and never fails. -/
def eager : Kernel where
  send _ := [.took sendCap]
  modify _ := true
  walk _ items := items
  walk_perm _ _ := .refl _

/-- A kernel whose sockets take two bytes in each call and then no more. -/
def drip : Kernel := { eager with send := fun _ => [.took 2, .wouldBlock] }

/-- One connection says hello to nobody. -/
def helloBatch : Batch where
  events := [.accept [.arrived 5 true],
    .ready ⟨5, false, false, true, [.data (Framing.encode cChat (ascii "hi"))]⟩]
  tickDue := false

/-- Two connections enter a room, and one of them says hello. -/
def talkBatch : Batch where
  events := [.accept [.arrived 5 true, .arrived 6 true],
    .ready ⟨6, false, false, true, [.data (Framing.encode cSetNick (ascii "b") ++
      Framing.encode cJoin (ascii "r"))]⟩,
    .ready ⟨5, false, false, true, [.data (Framing.encode cSetNick (ascii "a") ++
      Framing.encode cJoin (ascii "r") ++ Framing.encode cChat (ascii "hi"))]⟩]
  tickDue := false

/-- Both read it, once. -/
theorem chat_delivery_talk :
    ChatDelivery (run eager ⟨true, false, 2⟩ [talkBatch]) ∧
      ∀ fd ∈ [5, 6], (appendsTo fd (run eager ⟨true, false, 2⟩ [talkBatch]).trace).filter
        (fun frame => frame.1 = sChat) = [(sChat, ascii "a: hi")] :=
  ⟨chat_delivery eager ⟨true, false, 2⟩ rfl [talkBatch], by decide⟩

/-! ## Joins -/

theorem greets_rule (k : Kernel) (cfg : Config) :
    PacketRule (rules k cfg) (fun _ => True) (Greets (rules k cfg)) where
  start := trivial
  sends _ _ _ _ := trivial
  input _ _ _ _ := trivial
  insert _ _ _ _ := trivial
  leave _ _ _ := trivial
  remove _ _ _ := trivial
  packet _ _ _ _ _ _ _ _ := trivial
  done _ _ _ _ _ _ opened packet grown _ := packet.greets opened grown
  unread _ _ _ _ _ _ greets := greets.unread

/-- The notice of a join repeats the connection's own name, NUL bytes and all. -/
theorem join_notice_own (k : Kernel) (cfg : Config) (batches : List Batch) :
    ∀ join ∈ joins (run k cfg batches).trace, ∀ answer ∈ join.answers, answer = ownNotice join := by
  intro join member answer queued
  obtain ⟨_, packets⟩ := (run_runs k cfg batches).packets (greets_rule k cfg)
  obtain ⟨entering, body, answers, greets⟩ := packets.joins.2 join member
  obtain ⟨room, echo, ⟨_, _, _, own⟩, gets, misses⟩ := greets rfl entering
  rw [answers] at queued
  by_cases fits : Fits join.clients join.fd (joinedNotice echo)
  · rw [gets fits, List.mem_singleton, own] at queued
    exact queued
  · rw [misses fits] at queued
    cases queued

end World

end NetEngine.Epoll.Server
