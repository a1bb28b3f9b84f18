import Mathlib.Algebra.Order.BigOperators.Group.List
import Mathlib.Algebra.Order.Ring.Nat
import Mathlib.Data.Nat.Cast.Basic
import NetEngine.Epoll.ChatDepartures
import NetEngine.Epoll.ChatInbound
import NetEngine.Epoll.TickLedger

/-! The memory of `server.cpp`: what any peers and any sockets can make it hold. A
connection holds what its caps allow, and a tick buffer belongs to an inhabited room. -/

set_option autoImplicit false

namespace NetEngine.Epoll

open Socket

/-! ## Send queues -/

section Queues

variable {ρ : Type}

/-- No queue is longer than the cap, and names are as short as `c_set_nick` cuts them. -/
def Modest (state : State ρ) : Prop :=
  ∀ fd client, state.clients fd = some client →
    client.pending.length ≤ sendCap ∧ client.nick.length ≤ nickMax

namespace Modest

variable {state after : State ρ} {fd : Fd}

theorem only (modest : Modest state) (only : Only fd state after)
    (own : ∀ client, after.clients fd = some client →
      client.pending.length ≤ sendCap ∧ client.nick.length ≤ nickMax) : Modest after := by
  intro other client found
  by_cases same : other = fd
  · exact own client (same ▸ found)
  · exact modest other client (only.clients other same ▸ found)

theorem update (modest : Modest state) {change : Client ρ → Client ρ}
    (keeps : ∀ client : Client ρ, client.pending.length ≤ sendCap ∧ client.nick.length ≤ nickMax →
      (change client).pending.length ≤ sendCap ∧ (change client).nick.length ≤ nickMax) :
    Modest (state.update fd change) := by
  refine modest.only (State.update_only change) fun later found => ?_
  rw [State.update_clients, Option.map_eq_some_iff] at found
  obtain ⟨client, before, rfl⟩ := found
  exact keeps client (modest fd client before)

theorem doom (modest : Modest state) : Modest (state.doom fd) := by
  refine modest.only State.doom_only fun later found => ?_
  rw [State.doom_client, Option.map_eq_some_iff] at found
  obtain ⟨client, before, rfl⟩ := found
  exact modest fd client before

theorem append (modest : Modest state) {type : UInt16} {payload : Bytes}
    (takes : state.Takes fd payload) : Modest (state.append fd type payload) := by
  refine modest.only State.append_only fun later found => ?_
  obtain ⟨client, before, _, fits⟩ := takes
  rw [State.append_client, before, Option.map_some, Option.some.injEq] at found
  subst found
  refine ⟨?_, (modest fd client before).2⟩
  rw [List.length_append, Framing.encode_length, ← Nat.add_assoc]
  exact fits

theorem flush (modest : Modest state) (answers : List SendAnswer) (done : Bool) :
    Modest (state.flushSend answers done fd) := by
  have masked : ∀ {state : State ρ}, Modest state → Modest (state.updateEpollMask done fd) := by
    intro state modest
    cases found : state.clients fd with
    | none => rwa [State.updateEpollMask, found]
    | some client =>
        rcases State.updateEpollMask_cases done found with ⟨_, same⟩ | ⟨_, same⟩
        · rwa [same]
        · rw [same]
          cases done with
          | false => exact modest
          | true => exact modest.update fun _ => id
  cases found : state.clients fd with
  | none => rwa [State.flushSend_absent found]
  | some client =>
      have sent : Modest (state.sent fd (sendLoop client.pending answers)) := by
        refine modest.only State.sent_only fun later laterFound => ?_
        simp only [State.sent, State.emit_clients, State.update_clients, found, Option.map_some,
          Option.some.injEq] at laterFound
        subst laterFound
        have whole := congrArg List.length (sendLoop_conserves client.pending answers)
        rw [List.length_append] at whole
        have small := (modest fd client found).1
        exact ⟨by simp only; omega, (modest fd client found).2⟩
      rcases State.flushSend_cases answers done found with ⟨_, same⟩ | ⟨_, _, same⟩ | ⟨_, _, same⟩
      · exact same ▸ masked modest
      · exact same ▸ sent.doom
      · exact same ▸ masked sent

end Modest

theorem modest_events (rules : Rules ρ) : PreservesEvents rules (Modest : State ρ → Prop) where
  note _ _ _ _ _ modest := modest
  refused _ _ _ modest := modest
  doom _ _ modest := modest.doom
  append _ _ _ _ takes modest := modest.append takes
  refuse state fd payload _ _ modest := by
    have noted : Modest (state.emit (.overCap fd (headerSize + payload.length))) := modest
    exact noted.doom
  flush _ _ _ flushes modest := by
    obtain ⟨answers, done, _, rfl⟩ := flushes
    exact modest.flush answers done
  mark state fd modest := by
    rcases State.markDirty_cases state fd with ⟨_, _, _, _, same⟩ | ⟨_, same⟩
    · rw [same]
      exact modest.update fun _ => id
    · rw [same]
      exact modest
  name _ _ _ short modest := modest.update fun _ small => ⟨small.1, short⟩
  enter _ _ _ modest := modest.update fun _ => id
  input _ _ _ modest := modest.update fun _ => id
  insert state fd _ modest := by
    refine modest.only State.insert_only fun client found => ?_
    simp only [State.insert, Function.update_self, Option.some.injEq] at found
    subst found
    exact ⟨Nat.zero_le _, Nat.zero_le _⟩
  stop _ modest := modest

theorem modest_preserves (rules : Rules ρ) : Preserves rules (Modest : State ρ → Prop) where
  toPreservesEvents := modest_events rules
  clean _ _ modest := modest.update fun _ => id
  flushed _ modest := modest
  departed _ _ _ _ found departs modest := by
    refine (modest_events rules).departed (fun _ _ _ modest => modest) (fun state fd _ modest => ?_)
      found departs modest
    refine modest.only State.remove_only fun client found => ?_
    simp [State.remove] at found
  reaped _ modest := modest

theorem Runs.modest {rules : Rules ρ} {batches : List Batch} {state after : State ρ}
    (runs : Runs rules batches state after) (modest : Modest state) : Modest after := by
  induction runs with
  | nil | stop _ => exact modest
  | cons _ iterates _ ih => exact ih ((modest_preserves rules).iterates iterates modest)

end Queues

/-- A connection that departs is in no room. -/
theorem Depart.roomIn {ρ : Type} {rules : Rules ρ} {fd : Fd} {client : Client ρ}
    {state after : State ρ} (found : state.clients fd = some client)
    (departs : Depart rules fd client state after) :
    Epoll.roomIn after.clients = Function.update (Epoll.roomIn state.clients) fd none := by
  cases departs with
  | silent _ => exact roomIn_enterRoom found none
  | notice _ _ told =>
      have sends : Sends True (fun _ => True) (state.enterRoom fd none) after := told.sends trivial
      rw [sends.roomIn, roomIn_enterRoom found]

theorem roomIn_remove {ρ : Type} (state : State ρ) (fd : Fd) :
    roomIn (state.remove fd).clients = Function.update (roomIn state.clients) fd none := by
  funext other
  by_cases own : other = fd
  · subst own
    simp [roomIn, State.remove]
  · simp [roomIn, State.remove, own]

theorem roomIn_insert {ρ : Type} {state : State ρ} {fd : Fd} (absent : state.clients fd = none) :
    roomIn (state.insert fd).clients = roomIn state.clients := by
  funext other
  by_cases own : other = fd
  · subst own
    simp [roomIn, State.insert, absent]
  · simp [roomIn, State.insert, own]

namespace Server

/-! ## Tick buffers -/

/-- The tick buffers belong to inhabited rooms, each to one. -/
structure Buffers (cfg : Config) (bufs : List (Bytes × Bytes)) (inhabited : Bytes → Prop) :
    Prop where
  plain : cfg.coalesce = false → bufs = []
  keys : (bufs.map Prod.fst).Nodup
  inside : ∀ entry ∈ bufs, inhabited entry.1
  short : ∀ entry ∈ bufs, entry.2.length ≤ tickCap

namespace Buffers

variable {cfg : Config} {bufs : List (Bytes × Bytes)} {inhabited after : Bytes → Prop}
  {room line : Bytes}

theorem imp (buffers : Buffers cfg bufs inhabited) (moves : ∀ entry ∈ bufs, after entry.1) :
    Buffers cfg bufs after :=
  ⟨buffers.plain, buffers.keys, moves, buffers.short⟩

theorem filter (buffers : Buffers cfg bufs inhabited) (room : Bytes) :
    Buffers cfg (bufs.filter fun entry => entry.1 ≠ room) fun name => inhabited name ∧ name ≠ room where
  plain plain := by rw [buffers.plain plain]; rfl
  keys := buffers.keys.sublist (List.filter_sublist.map Prod.fst)
  inside entry member := by
    obtain ⟨held, apart⟩ := List.mem_filter.mp member
    exact ⟨buffers.inside entry held, of_decide_eq_true apart⟩
  short entry member := buffers.short entry (List.mem_filter.mp member).1

theorem tickEntry_short (buffers : Buffers cfg bufs inhabited) :
    (World.tickEntry bufs room).length ≤ tickCap := by
  by_cases empty : World.tickEntry bufs room = []
  · rw [empty]
    exact Nat.zero_le _
  · exact buffers.short _ (World.tickEntry_held empty)

theorem set (buffers : Buffers cfg bufs inhabited) (coalesce : cfg.coalesce = true)
    (inside : inhabited room) {buf : Bytes} (short : buf.length ≤ tickCap) :
    Buffers cfg (World.setTickEntry bufs room buf) inhabited where
  plain plain := by rw [coalesce] at plain; cases plain
  keys := World.setTickEntry_nodup buffers.keys
  inside entry member := by
    rcases World.setTickEntry_mem member with rfl | ⟨held, _⟩
    · exact inside
    · exact buffers.inside entry held
  short entry member := by
    rcases World.setTickEntry_mem member with rfl | ⟨held, _⟩
    · exact short
    · exact buffers.short entry held

theorem record {w : World} (buffers : Buffers cfg w.tickBuf inhabited)
    (coalesce : cfg.coalesce = true) (inside : inhabited room) :
    Buffers cfg (w.record room line).tickBuf inhabited := by
  unfold World.record
  simp only
  split
  · exact buffers.set coalesce inside buffers.tickEntry_short
  next fits =>
    refine buffers.set coalesce inside ?_
    rw [List.length_append, List.length_append, LittleEndian.encode_length]
    omega

/-- Emptied buffers of the same rooms. -/
theorem emptied {next : List (Bytes × Bytes)} (buffers : Buffers cfg bufs inhabited)
    (keys : next.map Prod.fst = bufs.map Prod.fst) (empty : ∀ entry ∈ next, entry.2 = []) :
    Buffers cfg next inhabited where
  plain plain := by
    rw [buffers.plain plain, List.map_nil, List.map_eq_nil_iff] at keys
    exact keys
  keys := keys ▸ buffers.keys
  inside entry member := by
    obtain ⟨old, held, same⟩ := List.mem_map.mp (keys ▸ List.mem_map_of_mem member)
    exact same ▸ buffers.inside old held
  short entry member := by rw [empty entry member]; exact Nat.zero_le _

end Buffers

/-! ## Inputs, names and rooms -/

/-- What `on_readable` lets a connection buffer. -/
def inputMax : Nat := maxPayload + headerSize + 65536

structure Tidy (cfg : Config) (w : World) : Prop where
  inputs : ∀ fd client, w.clients fd = some client → client.input.length ≤ inputMax
  names : ∀ fd room, roomIn w.clients fd = some room → room.length ≤ roomMax
  full : w.size ≤ cfg.maxConns
  buffers : Buffers cfg w.tickBuf fun room => ∃ fd, roomIn w.clients fd = some room

namespace Tidy

open World

variable {k : Kernel} {cfg : Config} {w after : World} {fd : Fd} {c : Conn}

theorem init : Tidy cfg World.init where
  inputs _ _ found := by cases found
  names _ _ within := by cases within
  full := Nat.zero_le _
  buffers := ⟨fun _ => rfl, .nil, fun _ member => (List.not_mem_nil member).elim,
    fun _ member => (List.not_mem_nil member).elim⟩

/-- The trace, the lists and the clock do not matter. -/
theorem congr (tidy : Tidy cfg w) (conns : after.conns = w.conns) (size : after.size = w.size)
    (bufs : after.tickBuf = w.tickBuf) : Tidy cfg after := by
  have clients : after.clients = w.clients := by unfold World.clients; rw [conns]
  refine ⟨?_, ?_, size ▸ tidy.full, ?_⟩
  · rw [clients]
    exact tidy.inputs
  · rw [clients]
    exact tidy.names
  · rw [bufs, clients]
    exact tidy.buffers

theorem emit (tidy : Tidy cfg w) (obs : Obs Bytes) : Tidy cfg (w.emit obs) :=
  tidy.congr rfl rfl rfl

theorem inputs_of_sends {names : Prop} {types : UInt16 → Prop} (tidy : Tidy cfg w)
    (sends : Sends names types w.state after.state) :
    ∀ fd client, after.clients fd = some client → client.input.length ≤ inputMax := by
  intro fd later found
  obtain ⟨client, before, carries⟩ := sends.back found
  rw [carries.input]
  exact tidy.inputs fd client before

theorem of_quiet (tidy : Tidy cfg w) (quiet : w.Quiet after) : Tidy cfg after := by
  have size : after.size = w.size := quiet.sends.size
  have rooms : roomIn after.clients = roomIn w.clients := quiet.sends.roomIn
  have bufs : after.tickBuf = w.tickBuf := congrArg Prod.fst quiet.ledger
  refine ⟨tidy.inputs_of_sends quiet.sends, ?_, size ▸ tidy.full, ?_⟩
  · rw [rooms]
    exact tidy.names
  · rw [bufs, rooms]
    exact tidy.buffers

theorem input (tidy : Tidy cfg w) (found : w.conns fd = some c) : c.input.length ≤ inputMax :=
  tidy.inputs fd c.client (by simp [World.clients, found])

/-- Only what a connection has buffered changes. -/
theorem update_input (tidy : Tidy cfg w) {change : Bytes → Bytes}
    (short : ∀ c, w.conns fd = some c → (change c.input).length ≤ inputMax) :
    Tidy cfg (w.update fd fun c => { c with input := change c.input }) := by
  have same : (w.update fd fun c => { c with input := change c.input }).state =
      w.state.update fd fun client => { client with input := change client.input } :=
    state_update fun _ => rfl
  have rooms : roomIn (w.update fd fun c => { c with input := change c.input }).clients =
      roomIn w.clients := by
    change roomIn (State.clients (World.state _)) = _
    rw [same]
    exact roomIn_update _ fun _ => rfl
  refine ⟨fun other later found => ?_, ?_, tidy.full, ?_⟩
  · by_cases own : other = fd
    · subst own
      cases before : w.conns other with
      | none => simp [World.clients, World.update, before] at found
      | some c =>
          simp only [World.clients, World.update, before, Function.update_self, Option.map_some,
            Option.some.injEq] at found
          exact found ▸ short c before
    · refine tidy.inputs other later ?_
      simpa [World.clients, World.update, own] using found
  · rw [rooms]
    exact tidy.names
  · rw [rooms]
    exact tidy.buffers

/-- What is left of the buffers when a connection leaves its room belongs to the others. -/
theorem leaves (tidy : Tidy cfg w) (agree : RoomsAgree w) (found : w.conns fd = some c) :
    Buffers cfg (w.leaveRoom cfg fd).tickBuf fun room =>
      ∃ other, other ≠ fd ∧ roomIn w.clients other = some room := by
  by_cases outside : c.room = []
  · have bufs : (w.leaveRoom cfg fd).tickBuf = w.tickBuf :=
      congrArg Prod.fst (leaveRoom_outside_ledger found outside)
    rw [bufs]
    refine tidy.buffers.imp fun entry member => ?_
    obtain ⟨other, within⟩ := tidy.buffers.inside entry member
    refine ⟨other, ?_, within⟩
    rintro rfl
    rw [roomIn_conn found, if_pos outside] at within
    cases within
  · have own := roomIn_some found outside
    have apart : ∀ entry ∈ w.tickBuf, entry.1 ≠ c.room →
        ∃ other, other ≠ fd ∧ roomIn w.clients other = some entry.1 := by
      intro entry member elsewhere
      obtain ⟨other, within⟩ := tidy.buffers.inside entry member
      refine ⟨other, ?_, within⟩
      rintro rfl
      rw [own, Option.some.injEq] at within
      exact elsewhere within.symm
    rcases @leaveRoom_ledger cfg w fd c agree found outside with ⟨same, others⟩ | ⟨gone, _⟩
    · have bufs : (w.leaveRoom cfg fd).tickBuf = w.tickBuf := congrArg Prod.fst same
      rw [bufs]
      refine tidy.buffers.imp fun entry member => ?_
      by_cases here : entry.1 = c.room
      · cases coalesce : cfg.coalesce with
        | false =>
            rw [tidy.buffers.plain coalesce] at member
            cases member
        | true => exact here ▸ others coalesce
      · exact apart entry member here
    · have bufs : (w.leaveRoom cfg fd).tickBuf =
          w.tickBuf.filter fun entry => entry.1 ≠ c.room := congrArg Prod.fst gone
      rw [bufs]
      exact (tidy.buffers.filter c.room).imp fun entry member =>
        apart entry (List.mem_filter.mp member).1 (of_decide_eq_true (List.mem_filter.mp member).2)

theorem packet {type : UInt16} {payload : Bytes} (tidy : Tidy cfg w) (agree : RoomsAgree w)
    (found : w.conns fd = some c) : Tidy cfg (w.handlePacket k cfg fd type payload) := by
  obtain ⟨packet, _⟩ := @handlePacket_packet k cfg w fd c type payload agree found
  have sends : Sends False (fun _ => True) w.state _ := packet.sends trivial fun _ => trivial
  have size : (w.handlePacket k cfg fd type payload).size = w.size := sends.size
  have ledger := @handlePacket_ledger k cfg w fd c type payload agree found
  have bufs := congrArg Prod.fst ledger
  refine ⟨tidy.inputs_of_sends sends, fun other room within => ?_, size ▸ tidy.full, ?_⟩
  · rcases packet.roomIn with same | ⟨name, echo, resolves, moved⟩
    · exact tidy.names other room (same ▸ within)
    · obtain ⟨_, _, rfl, rfl⟩ := resolves
      have within : roomIn (World.state _).clients other = some room := within
      rw [moved] at within
      by_cases own : other = fd
      · subst own
        rw [Function.update_self, Option.some.injEq] at within
        exact within ▸ List.length_take_le roomMax payload
      · rw [Function.update_of_ne own] at within
        exact tidy.names other room within
  · by_cases entering : type = cJoin ∧ enters w.clients fd payload = true
    · rw [if_pos entering] at bufs
      change (w.handlePacket k cfg fd type payload).tickBuf = _ at bufs
      rw [bufs]
      refine (tidy.leaves agree found).imp fun entry member => ?_
      obtain ⟨other, apart, within⟩ := (tidy.leaves agree found).inside entry member
      refine ⟨other, ?_⟩
      change roomIn (World.state _).clients other = _
      rcases packet.roomIn with same | ⟨name, echo, _, moved⟩
      · exact same ▸ within
      · rwa [moved, Function.update_of_ne apart]
    · have stays : roomIn (w.handlePacket k cfg fd type payload).clients = roomIn w.clients :=
        packet.roomIn_stays fun join => by
          cases enter : enters w.clients fd payload with
          | false => exact enter
          | true => exact absurd ⟨join, enter⟩ entering
      rw [if_neg entering] at bufs
      rw [stays]
      change (w.handlePacket k cfg fd type payload).tickBuf = _ at bufs
      rw [bufs]
      split
      next chats =>
        exact tidy.buffers.record chats.2.1 ⟨fd, roomIn_some found chats.2.2⟩
      · exact tidy.buffers

theorem accept (tidy : Tidy cfg w) (absent : w.conns fd = none) (room : w.size < cfg.maxConns) :
    Tidy cfg (w.emplace fd) := by
  have rooms : roomIn (w.emplace fd).clients = roomIn w.clients := by
    change roomIn (World.state _).clients = _
    rw [emplace_state]
    exact roomIn_insert (by simp [absent])
  refine ⟨fun other later found => ?_, ?_, room, ?_⟩
  · by_cases own : other = fd
    · subst own
      simp only [World.clients, World.emplace, Function.update_self, Option.map_some,
        Option.some.injEq] at found
      subst found
      exact Nat.zero_le _
    · refine tidy.inputs other later ?_
      simpa [World.clients, World.emplace, own] using found
  · rw [rooms]
    exact tidy.names
  · rw [rooms]
    exact tidy.buffers

theorem depart (tidy : Tidy cfg w) (sound : Sound w) (found : w.conns fd = some c) :
    Tidy cfg (((w.emit (.departs w.clients fd)).depart k cfg fd c).close fd) := by
  have tidy := tidy.emit (.departs w.clients fd)
  have sound := sound.emit (.departs w.clients fd)
  have found : (w.emit (.departs w.clients fd)).conns fd = some c := found
  generalize w.emit (.departs w.clients fd) = w at tidy sound found ⊢
  obtain ⟨departs, _⟩ := @depart_departs k cfg w fd c sound.agree found
  have sends : Sends False (fun _ => True) w.state _ := departs.sends trivial
  have inputs := tidy.inputs_of_sends sends
  have size : (w.depart k cfg fd c).size = w.size := sends.size
  have bufs : (w.depart k cfg fd c).tickBuf = (w.leaveRoom cfg fd).tickBuf :=
    congrArg Prod.fst (@depart_ledger k cfg w fd c)
  have rooms : roomIn ((w.depart k cfg fd c).close fd).clients =
      Function.update (roomIn w.clients) fd none := by
    change roomIn (World.state _).clients = _
    rw [close_state, roomIn_remove, departs.roomIn (by simp [found]), Function.update_idem]
    rfl
  refine ⟨fun other later present => ?_, fun other room within => ?_,
    (Nat.sub_le _ 1).trans (size ▸ tidy.full), ?_⟩
  · by_cases own : other = fd
    · subst own
      simp [World.clients, World.close] at present
    · refine inputs other later ?_
      simpa [World.clients, World.close, own] using present
  · rw [rooms] at within
    by_cases own : other = fd
    · rw [own, Function.update_self] at within
      cases within
    · rw [Function.update_of_ne own] at within
      exact tidy.names other room within
  · change Buffers cfg (w.depart k cfg fd c).tickBuf _
    rw [bufs]
    refine (tidy.leaves sound.agree found).imp fun entry member => ?_
    obtain ⟨other, apart, within⟩ := (tidy.leaves sound.agree found).inside entry member
    exact ⟨other, by rw [rooms, Function.update_of_ne apart]; exact within⟩

theorem keeps (k : Kernel) (cfg : Config) : Keeps k cfg (Tidy cfg) where
  quiet _ _ quiet tidy := tidy.of_quiet quiet
  mark _ obs _ tidy := tidy.emit obs
  erase w fd size tidy := by
    refine tidy.update_input fun c found => ?_
    rw [List.length_drop]
    exact (Nat.sub_le _ _).trans (tidy.input found)
  receive w fd c chunk found short tidy := by
    refine @update_input cfg (w.emit (.recv fd chunk)) fd (tidy.emit _) (fun input => input ++ chunk)
      fun c' found' => ?_
    obtain rfl : c = c' := Option.some.inj (found.symm.trans found')
    rw [List.length_append]
    exact short
  packet _ _ _ _ _ sound found _ tidy := (tidy.emit _).packet (sound.emit _).agree found
  accept _ _ _ absent room tidy := tidy.accept absent room
  depart _ _ _ sound found tidy := tidy.depart sound found
  lists _ _ _ _ tidy := tidy.congr rfl rfl rfl

theorem tick (tidy : Tidy cfg w) : Tidy cfg (w.flushTickRooms k cfg) := by
  obtain ⟨ticks, _⟩ := @flushTickRooms_ticks k cfg w
  obtain ⟨keys, empty, _⟩ := @flushTickRooms_ledger k cfg w
  have sends : Sends True (fun _ => True) w.state _ := ticks.sends trivial
  have size : (w.flushTickRooms k cfg).size = w.size := sends.size
  have rooms : roomIn (w.flushTickRooms k cfg).clients = roomIn w.clients := sends.roomIn
  refine ⟨tidy.inputs_of_sends sends, ?_, size ▸ tidy.full, ?_⟩
  · rw [rooms]
    exact tidy.names
  · rw [rooms]
    exact tidy.buffers.emptied keys empty

theorem run (k : Kernel) (cfg : Config) (batches : List Batch) :
    Tidy cfg (World.run k cfg batches) :=
  (keeps k cfg).run (fun _ _ tidy => tidy.tick) .init batches

end Tidy

/-! ## The bound -/

/-- The bytes behind a connection. -/
def Conn.held (c : Conn) : Nat := c.nick.length + c.room.length + c.input.length + c.out.length

namespace World

/-- The bytes behind these connections and behind the tick buffers. -/
def held (w : World) (fds : List Fd) : Nat :=
  (fds.map fun fd => (w.conns fd).elim 0 Conn.held).sum +
    (w.tickBuf.map fun entry => entry.1.length + entry.2.length).sum

/-- What one connection can make the server hold. -/
def connMax : Nat := nickMax + roomMax + inputMax + sendCap + (roomMax + tickCap)

/-- There are at most as many tick buffers as connections. -/
theorem tickBuf_length {w : World} {cfg : Config} (tidy : Tidy cfg w) {fds : List Fd}
    (lists : ∀ fd, fd ∈ fds ↔ w.state.Live fd) : w.tickBuf.length ≤ fds.length := by
  have covered : w.tickBuf.map (some ∘ Prod.fst) ⊆ fds.map (roomIn w.clients) := by
    intro name member
    obtain ⟨entry, held, rfl⟩ := List.mem_map.mp member
    obtain ⟨fd, within⟩ := tidy.buffers.inside entry held
    refine List.mem_map.mpr ⟨fd, (lists fd).mpr ?_, within⟩
    obtain ⟨client, found, _⟩ := Option.bind_eq_some_iff.mp within
    exact ⟨client, found⟩
  have nodup : (w.tickBuf.map (some ∘ Prod.fst)).Nodup := by
    rw [← List.map_map]
    exact tidy.buffers.keys.map (Option.some_injective _)
  simpa using (List.subperm_of_subset nodup covered).length_le

/-- Whatever the peers send, whatever the sockets refuse and whenever the ticks come. -/
theorem memory_bounded (k : Kernel) (cfg : Config) (batches : List Batch) :
    ∃ fds : List Fd, fds.Nodup ∧ (∀ fd, fd ∈ fds ↔ (run k cfg batches).state.Live fd) ∧
      fds.length ≤ cfg.maxConns ∧
      (run k cfg batches).tickBuf.length ≤ fds.length ∧
      (∀ fd client, (run k cfg batches).clients fd = some client → client.closing = false →
        client.input.length < maxFrame) ∧
      (run k cfg batches).held fds ≤ cfg.maxConns * connMax := by
  have tidy := Tidy.run k cfg batches
  have runs := run_runs k cfg batches
  have modest : Modest (run k cfg batches).state := runs.modest fun _ _ found => by cases found
  obtain ⟨fds, nodup, lists, counts⟩ : (run k cfg batches).state.Counted :=
    (@runFrom_runs k cfg init batches .init).2.counted
  have few : fds.length ≤ cfg.maxConns := counts.trans_le tidy.full
  have entries := tickBuf_length tidy lists
  have own : ∀ bytes ∈ fds.map fun fd => ((run k cfg batches).conns fd).elim 0 Conn.held,
      bytes ≤ nickMax + roomMax + inputMax + sendCap := by
    intro bytes member
    obtain ⟨fd, _, rfl⟩ := List.mem_map.mp member
    cases found : (run k cfg batches).conns fd with
    | none => exact Nat.zero_le _
    | some c =>
        have client : (run k cfg batches).clients fd = some c.client := by
          simp [World.clients, found]
        obtain ⟨queue, nick⟩ := modest fd c.client client
        have input := tidy.input found
        have room : c.room.length ≤ roomMax := by
          by_cases outside : c.room = []
          · rw [outside]
            exact Nat.zero_le _
          · exact tidy.names fd c.room (roomIn_some found outside)
        have queue : c.out.length ≤ sendCap := queue
        have nick : c.nick.length ≤ nickMax := nick
        simp only [Option.elim_some, Conn.held]
        omega
  have shared : ∀ bytes ∈ (run k cfg batches).tickBuf.map fun entry =>
      entry.1.length + entry.2.length, bytes ≤ roomMax + tickCap := by
    intro bytes member
    obtain ⟨entry, held, rfl⟩ := List.mem_map.mp member
    obtain ⟨fd, within⟩ := tidy.buffers.inside entry held
    exact Nat.add_le_add (tidy.names fd entry.1 within) (tidy.buffers.short entry held)
  refine ⟨fds, nodup, lists, few, entries, runs.keepsShort State.init_short, ?_⟩
  calc (run k cfg batches).held fds
      ≤ fds.length * (nickMax + roomMax + inputMax + sendCap) +
          (run k cfg batches).tickBuf.length * (roomMax + tickCap) := by
        have first := List.sum_le_card_nsmul _ _ own
        have second := List.sum_le_card_nsmul _ _ shared
        rw [List.length_map, nsmul_eq_mul, Nat.cast_id] at first second
        exact Nat.add_le_add first second
    _ ≤ fds.length * (nickMax + roomMax + inputMax + sendCap) +
          fds.length * (roomMax + tickCap) :=
        Nat.add_le_add_left (Nat.mul_le_mul_right _ entries) _
    _ = fds.length * connMax := (Nat.mul_add _ _ _).symm
    _ ≤ cfg.maxConns * connMax := Nat.mul_le_mul_right _ few

end World

end Server

end NetEngine.Epoll
