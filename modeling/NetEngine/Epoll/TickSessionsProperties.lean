import Mathlib.Data.List.Induction
import NetEngine.Epoll.ServerRuns
import NetEngine.Epoll.TickSessions
import NetEngine.Library.Machine

/-! What the tick walks: the sessions that were added and not removed since, and in
`server.cpp` the connections that are open. -/

set_option autoImplicit false

namespace NetEngine.Tick

open Bitmap (member members)

/-- The sizes that `init` accepts, with an arena that `size_t` can measure. -/
structure Sized (slots w : Nat) : Prop where
  positive : 0 < w
  whole : 64 ∣ w
  fits : slots * w < 2 ^ 64

namespace Sized

variable {slots w : Nat}

theorem slots_lt (sized : Sized slots w) : slots < 2 ^ 58 := by
  have least : 64 ≤ w := Nat.le_of_dvd sized.positive sized.whole
  have fits := Nat.lt_of_le_of_lt (Nat.mul_le_mul_left slots least) sized.fits
  omega

theorem words_eq (sized : Sized slots w) : words slots = (slots + 63) / 64 := by
  have small := sized.slots_lt
  rw [words, Nat.mod_eq_of_lt (by omega)]

/-- The bitmap has a word for every slot. -/
theorem word_inside (sized : Sized slots w) {slot : Nat} (inside : slot < slots) :
    slot / 64 < words slots := by
  rw [sized.words_eq]
  omega

theorem line_inside (sized : Sized slots w) {offset : Nat} (line : offset ∈ lines w) : offset + 64 ≤ w := by
  obtain ⟨i, row, rfl⟩ := List.mem_map.mp line
  have below := List.mem_range.mp row
  obtain ⟨count, w_eq⟩ := sized.whole
  omega

theorem block_inside (sized : Sized slots w) {slot : Nat} (inside : slot < slots) :
    slot * w % 2 ^ 64 = slot * w ∧ slot * w + w ≤ slots * w := by
  have step : slot * w + w ≤ slots * w := by
    rw [← Nat.succ_mul]
    exact Nat.mul_le_mul_right w inside
  have fits := sized.fits
  exact ⟨Nat.mod_eq_of_lt (by omega), step⟩

end Sized

namespace Sessions

/-! ## Touching -/

/-- `after` is `s` with these blocks touched, one after the other. -/
structure Touches (s : Sessions) (row : List Nat) (after : Sessions) : Prop where
  enabled : after.enabled = s.enabled
  w : after.w = s.w
  slots : after.slots = s.slots
  live : after.live = s.live
  liveN : after.liveN = s.liveN
  touched : after.touched = s.touched ++ row
  accesses : ∀ offset ∈ after.accesses, offset ∈ s.accesses ∨
    ∃ slot ∈ row, ∃ inner, (inner = 0 ∨ inner ∈ lines s.w) ∧ offset = slot * s.w % 2 ^ 64 + inner

theorem Touches.nil (s : Sessions) : Touches s [] s :=
  ⟨rfl, rfl, rfl, rfl, rfl, (List.append_nil _).symm, fun _ member => .inl member⟩

theorem Touches.trans {s middle after : Sessions} {early late : List Nat} (first : Touches s early middle)
    (second : Touches middle late after) : Touches s (early ++ late) after := by
  constructor
  case enabled => rw [second.enabled, first.enabled]
  case w => rw [second.w, first.w]
  case slots => rw [second.slots, first.slots]
  case live => rw [second.live, first.live]
  case liveN => rw [second.liveN, first.liveN]
  case touched => rw [second.touched, first.touched, List.append_assoc]
  case accesses =>
    intro offset member
    cases second.accesses offset member with
    | inr here =>
        obtain ⟨slot, inside, place⟩ := here
        rw [first.w] at place
        exact .inr ⟨slot, List.mem_append_right early inside, place⟩
    | inl before =>
        cases first.accesses offset before with
        | inl old => exact .inl old
        | inr here =>
            obtain ⟨slot, inside, place⟩ := here
            exact .inr ⟨slot, List.mem_append_left late inside, place⟩

theorem touchLines (block : Nat) (offsets : List Nat) (s : Sessions) (acc : Word) :
    ∃ arena more last, offsets.foldl (touchLine block) (s, acc) =
        ({ s with arena, accesses := s.accesses ++ more }, last) ∧
      ∀ offset ∈ more, ∃ inner ∈ offsets, offset = block + inner := by
  induction offsets generalizing s acc with
  | nil => exact ⟨s.arena, [], acc, by simp, by simp⟩
  | cons first rest ih =>
      rw [List.foldl_cons]
      obtain ⟨arena, more, last, walked, places⟩ := ih (touchLine block (s, acc) first).1
        (touchLine block (s, acc) first).2
      refine ⟨arena, [block + first, block + first] ++ more, last, ?_, ?_⟩
      · rw [walked]
        simp [touchLine, load, store]
      · intro offset member
        cases List.mem_append.mp member with
        | inl here => exact ⟨first, List.mem_cons_self, by simpa using here⟩
        | inr later =>
            obtain ⟨inner, inside, place⟩ := places offset later
            exact ⟨inner, List.mem_cons_of_mem first inside, place⟩

theorem touchBlock_touches (s : Sessions) (slot : Nat) : Touches s [slot] (s.touchBlock slot) := by
  obtain ⟨arena, more, last, walked, places⟩ := touchLines (slot * s.w % 2 ^ 64) (lines s.w)
    (s.load (slot * s.w % 2 ^ 64)) (s.arena (slot * s.w % 2 ^ 64))
  unfold touchBlock
  simp only [walked]
  refine ⟨rfl, rfl, rfl, rfl, rfl, rfl, fun offset member => ?_⟩
  simp only [store, load, List.append_assoc, List.mem_append, List.mem_singleton] at member
  rcases member with old | first | line | last
  · exact .inl old
  · exact .inr ⟨slot, List.mem_singleton_self slot, 0, .inl rfl, first⟩
  · obtain ⟨inner, inside, place⟩ := places offset line
    exact .inr ⟨slot, List.mem_singleton_self slot, inner, .inr inside, place⟩
  · exact .inr ⟨slot, List.mem_singleton_self slot, 0, .inl rfl, last⟩

theorem foldl_touchBlock (slots : List Nat) (s : Sessions) :
    Touches s slots (slots.foldl touchBlock s) := by
  induction slots generalizing s with
  | nil => exact .nil s
  | cons slot slots ih => exact (touchBlock_touches s slot).trans (ih (s.touchBlock slot))

/-- The loop over the bits of a word touches their slots in ascending order. -/
theorem sweep_eq (wi fuel : Nat) (bits : Word) (s : Sessions) :
    sweep wi fuel bits s = ((Bitmap.places fuel bits).map (wi * 64 + ·)).foldl touchBlock s := by
  induction fuel generalizing bits s with
  | zero => rfl
  | succ fuel ih =>
      rw [sweep, Bitmap.places]
      split
      · rfl
      · rw [ih, List.map_cons, List.foldl_cons]

theorem runTick_eq (s : Sessions) (size : s.live.length = words s.slots) :
    s.runTick = (members s.live).foldl touchBlock s := by
  have walk : ∀ (rows : List Nat) (now : Sessions), now.live = s.live →
      rows.foldl (fun s wi => sweep wi 64 (s.live.getD wi 0) s) now =
        (rows.flatMap fun wi => (Bitmap.places 64 (s.live.getD wi 0)).map (wi * 64 + ·)).foldl touchBlock now := by
    intro rows
    induction rows with
    | nil => exact fun _ _ => rfl
    | cons wi rows ih =>
        intro now same
        rw [List.foldl_cons, List.flatMap_cons, List.foldl_append, same, sweep_eq]
        exact ih _ ((foldl_touchBlock _ now).live.trans same)
  rw [runTick, walk _ s rfl, Bitmap.members_eq (by decide), size]

/-- The tick touches the members of the bitmap, each once, in slot order. -/
theorem runTick_touches (s : Sessions) (size : s.live.length = words s.slots) :
    Touches s (members s.live) s.runTick := by
  rw [runTick_eq s size]
  exact foldl_touchBlock (members s.live) s

/-! ## The bitmap -/

/-- The bitmap, the counter and the arena in step. -/
structure Sound (slots w : Nat) (s : Sessions) : Prop where
  enabled : s.enabled = true
  width : s.w = w
  count : s.slots = slots
  size : s.live.length = words slots
  inside : ∀ slot, member s.live slot = true → slot < slots
  counted : s.liveN.toNat = (members s.live).length
  accesses : ∀ offset ∈ s.accesses, offset + 8 ≤ slots * w

variable {slots w : Nat} {s : Sessions}

theorem start_clear (slots w slot : Nat) : member (start slots w).live slot = false := by
  rw [start, member, List.getD_eq_getElem?_getD, List.getElem?_replicate]
  split <;> simp

theorem Sound.start (slots w : Nat) : Sound slots w (.start slots w) := by
  constructor
  case enabled | width | count => rfl
  case size => exact List.length_replicate
  case inside =>
    intro slot held
    rw [start_clear] at held
    cases held
  case counted =>
    have none : members (Sessions.start slots w).live = [] :=
      List.filter_eq_nil_iff.mpr fun slot _ => by simp [start_clear]
    rw [none]
    rfl
  case accesses => exact fun _ member => absurd member List.not_mem_nil

/-- No bit past the last slot is set. -/
theorem Sound.members_eq (sized : Sized slots w) (sound : Sound slots w s) :
    members s.live = (List.range slots).filter (member s.live) := by
  have wide : slots + (words slots * 64 - slots) = words slots * 64 := by
    rw [sized.words_eq]
    omega
  have past : (List.range (words slots * 64 - slots)).filter (member s.live ∘ (slots + ·)) = [] :=
    List.filter_eq_nil_iff.mpr fun i _ held => Nat.not_lt.mpr (Nat.le_add_right slots i) (sound.inside _ held)
  rw [members, sound.size, ← wide, List.range_add, List.filter_append, List.filter_map, past,
    List.map_nil, List.append_nil]

/-- What touches slots of the arena keeps the rest. -/
theorem Sound.touched (sized : Sized slots w) (sound : Sound slots w s) {row : List Nat} {after : Sessions}
    (touches : Touches s row after) (below : ∀ slot ∈ row, slot < slots) : Sound slots w after := by
  constructor
  case enabled => rw [touches.enabled, sound.enabled]
  case width => rw [touches.w, sound.width]
  case count => rw [touches.slots, sound.count]
  case size => rw [touches.live, sound.size]
  case inside => rw [touches.live]; exact sound.inside
  case counted => rw [touches.liveN, touches.live, sound.counted]
  case accesses =>
    intro offset member
    cases touches.accesses offset member with
    | inl old => exact sound.accesses offset old
    | inr here =>
        obtain ⟨slot, among, inner, place, rfl⟩ := here
        obtain ⟨exact_block, ends⟩ := sized.block_inside (below slot among)
        have least : 64 ≤ w := Nat.le_of_dvd sized.positive sized.whole
        rw [sound.width] at place ⊢
        rw [exact_block]
        cases place with
        | inl first => omega
        | inr line =>
            have last := sized.line_inside line
            omega

theorem Sound.runTick (sized : Sized slots w) (sound : Sound slots w s) :
    Sound slots w s.runTick ∧ Touches s (members s.live) s.runTick := by
  have touches := runTick_touches s (by rw [sound.size, sound.count])
  refine ⟨sound.touched sized touches fun slot among => sound.inside slot ?_, touches⟩
  exact (List.mem_filter.mp among).2

theorem Sound.onMsg (sized : Sized slots w) (sound : Sound slots w s) (fd : Int) :
    Sound slots w (s.onMsg fd) ∧ (s.onMsg fd).live = s.live := by
  unfold Sessions.onMsg
  split
  · exact ⟨sound, rfl⟩
  next fine =>
    push Not at fine
    rw [sound.count] at fine
    have counted : Sound slots w { s with msgs := s.msgs + 1 } :=
      ⟨sound.enabled, sound.width, sound.count, sound.size, sound.inside, sound.counted, sound.accesses⟩
    have touches := touchBlock_touches { s with msgs := s.msgs + 1 } fd.toNat
    refine ⟨counted.touched sized touches fun slot among => ?_, touches.live⟩
    rw [List.mem_singleton.mp among]
    omega

theorem Sound.sessionAdd (sized : Sized slots w) (sound : Sound slots w s) (fd : Int) :
    Sound slots w (s.sessionAdd fd) ∧ ∀ slot, member (s.sessionAdd fd).live slot = true ↔
      member s.live slot = true ∨ ((slot : Int) = fd ∧ slot < slots) := by
  unfold Sessions.sessionAdd
  split
  next out =>
    rw [sound.enabled, sound.count] at out
    refine ⟨sound, fun slot => ⟨.inl, fun either => either.resolve_right ?_⟩⟩
    rintro ⟨rfl, below⟩
    simp only [Bool.true_eq_false, false_or] at out
    omega
  next fine =>
    push Not at fine
    rw [sound.count] at fine
    have positive : 0 ≤ fd := by omega
    obtain ⟨slot, rfl⟩ := Int.eq_ofNat_of_zero_le positive
    have below : slot < slots := by omega
    have room : slot / 64 < s.live.length := by rw [sound.size]; exact sized.word_inside below
    have place : slot % 64 < 64 := Nat.mod_lt slot (by decide)
    simp only [Int.toNat_natCast, Bitmap.and_mask place]
    have entry := Bitmap.member_insert (by decide) room
    split
    next fresh =>
      have grown := Bitmap.length_members_insert (by decide) room fresh
      have few : (members (Bitmap.insert s.live slot)).length ≤ words slots * 64 := by
        rw [← sound.size, ← @Bitmap.length_insert _ s.live slot]
        exact (List.length_filter_le _ _).trans_eq List.length_range
      have small := sized.slots_lt
      refine ⟨⟨sound.enabled, sound.width, sound.count, ?_, ?_, ?_, sound.accesses⟩, ?_⟩
      · rw [← sound.size]
        exact Bitmap.length_insert
      · intro other held
        rw [entry] at held
        split at held
        next same => rw [same]; exact below
        · exact sound.inside other held
      · rw [sized.words_eq] at few
        change (s.liveN + 1).toNat = (members (Bitmap.insert s.live slot)).length
        rw [grown, ← sound.counted] at few ⊢
        exact BitVec.toNat_add_of_lt (by simp; omega)
      · intro other
        rw [entry]
        split
        next same => simp [same, below]
        next different =>
          simp only [Int.natCast_inj, different, false_and, or_false]
    next held =>
      refine ⟨sound, fun other => ⟨.inl, fun either => ?_⟩⟩
      cases either with
      | inl old => exact old
      | inr same =>
          rw [Int.natCast_inj.mp same.1]
          exact Bool.eq_true_of_not_eq_false held

theorem Sound.sessionRemove (sized : Sized slots w) (sound : Sound slots w s) (fd : Int) :
    Sound slots w (s.sessionRemove fd) ∧ ∀ slot, member (s.sessionRemove fd).live slot = true ↔
      member s.live slot = true ∧ (slot : Int) ≠ fd := by
  unfold Sessions.sessionRemove
  split
  next out =>
    rw [sound.enabled, sound.count] at out
    refine ⟨sound, fun slot => ⟨fun held => ⟨held, ?_⟩, And.left⟩⟩
    rintro rfl
    have below := sound.inside slot held
    simp only [Bool.true_eq_false, false_or] at out
    omega
  next fine =>
    push Not at fine
    rw [sound.count] at fine
    have positive : 0 ≤ fd := by omega
    obtain ⟨slot, rfl⟩ := Int.eq_ofNat_of_zero_le positive
    have below : slot < slots := by omega
    have room : slot / 64 < s.live.length := by rw [sound.size]; exact sized.word_inside below
    have place : slot % 64 < 64 := Nat.mod_lt slot (by decide)
    simp only [Int.toNat_natCast, ne_eq, Bitmap.and_mask place, Int.natCast_inj]
    have entry := Bitmap.member_erase (by decide) room
    split
    next held =>
      have shrunk := Bitmap.length_members_erase (by decide) room (Bool.eq_true_of_not_eq_false held)
      refine ⟨⟨sound.enabled, sound.width, sound.count, ?_, ?_, ?_, sound.accesses⟩, ?_⟩
      · rw [← sound.size]
        exact Bitmap.length_erase
      · intro other still
        rw [entry] at still
        split at still
        · cases still
        · exact sound.inside other still
      · change (s.liveN - 1).toNat = (members (Bitmap.erase s.live slot)).length
        rw [← sound.counted] at shrunk
        have some : (1 : Word) ≤ s.liveN := BitVec.le_def.mpr (by simp; omega)
        rw [BitVec.toNat_sub_of_le some, shrunk]
        rfl
      · intro other
        rw [entry]
        split
        next same => simp [same]
        next different => simp [different]
    next gone =>
      refine ⟨sound, fun other => ⟨fun held => ⟨held, ?_⟩, And.left⟩⟩
      rintro rfl
      exact gone fun clear => Bool.noConfusion (held.symm.trans clear)

end Sessions

/-! ## Sequences of calls -/

/-- A session that was added and has not been removed since. -/
def AddedSince (hooks : List Hook) (slot : Nat) : Prop :=
  ∃ early late, hooks = early ++ .add slot :: late ∧ .remove slot ∉ late

theorem addedSince_snoc (hooks : List Hook) (hook : Hook) (slot : Nat) :
    AddedSince (hooks ++ [hook]) slot ↔
      (AddedSince hooks slot ∧ hook ≠ .remove slot) ∨ hook = .add slot := by
  constructor
  · rintro ⟨early, late, same, kept⟩
    cases Machine.split_snoc same with
    | inl last => exact .inr last.2.1
    | inr inner =>
        obtain ⟨shorter, rfl, rest⟩ := inner
        simp only [List.mem_append, List.mem_singleton, not_or] at kept
        exact .inl ⟨⟨early, shorter, rest, kept.1⟩, fun same => kept.2 same.symm⟩
  · rintro (⟨⟨early, late, rfl, kept⟩, different⟩ | rfl)
    · refine ⟨early, late ++ [hook], by simp, ?_⟩
      simp only [List.mem_append, List.mem_singleton, not_or]
      exact ⟨kept, fun same => different same.symm⟩
    · exact ⟨hooks, [], rfl, List.not_mem_nil⟩

namespace Sessions

variable {slots w : Nat}

theorem Sound.run (sized : Sized slots w) (hooks : List Hook) :
    Sound slots w (run slots w hooks) ∧ ∀ slot, member (run slots w hooks).live slot = true ↔
      slot < slots ∧ AddedSince hooks slot := by
  induction hooks using List.reverseRecOn with
  | nil =>
      refine ⟨.start slots w, fun slot => iff_of_false ?_ ?_⟩
      · rw [Sessions.run, List.foldl_nil, start_clear]
        exact Bool.false_ne_true
      · rintro ⟨_, early, late, same, _⟩
        simp at same
  | append_singleton hooks hook ih =>
      obtain ⟨sound, held⟩ := ih
      have last : Sessions.run slots w (hooks ++ [hook]) = (Sessions.run slots w hooks).call hook :=
        List.foldl_concat ..
      rw [last]
      cases hook with
      | add fd =>
          obtain ⟨next, entry⟩ := sound.sessionAdd sized fd
          refine ⟨next, fun slot => ?_⟩
          rw [call, entry, held, addedSince_snoc]
          simp only [ne_eq, reduceCtorEq, not_false_eq_true, and_true, Hook.add.injEq]
          constructor
          · intro either
            cases either with
            | inl before => exact ⟨before.1, .inl before.2⟩
            | inr now => exact ⟨now.2, .inr now.1.symm⟩
          · rintro ⟨below, before | now⟩
            · exact .inl ⟨below, before⟩
            · exact .inr ⟨now.symm, below⟩
      | remove fd =>
          obtain ⟨next, entry⟩ := sound.sessionRemove sized fd
          refine ⟨next, fun slot => ?_⟩
          rw [call, entry, held, addedSince_snoc]
          simp only [ne_eq, reduceCtorEq, or_false, Hook.remove.injEq, and_assoc, eq_comm]
      | msg fd =>
          obtain ⟨next, same⟩ := sound.onMsg sized fd
          refine ⟨next, fun slot => ?_⟩
          rw [call, same, held, addedSince_snoc]
          simp
      | tick =>
          obtain ⟨next, touches⟩ := sound.runTick sized
          refine ⟨next, fun slot => ?_⟩
          rw [call, touches.live, held, addedSince_snoc]
          simp

end Sessions

end NetEngine.Tick

namespace NetEngine.Epoll.Server

open Tick (Sized Sessions)
open Bitmap (member members)
open World (live_iff)

namespace Ticking

variable {slots w : Nat} {k : Kernel} {cfg : Config} {t : Ticking}

/-- The tick's bitmap holds the open connections, and so did every tick. -/
structure Synced (slots w : Nat) (t : Ticking) : Prop where
  world : World.Sound t.world
  sessions : Sessions.Sound slots w t.sessions
  live : ∀ slot, member t.sessions.live slot = true ↔ slot < slots ∧ (t.world.conns slot).isSome
  walks : ∀ walk ∈ t.walks, walk.2 = (List.range slots).filter fun slot => (walk.1.conns slot).isSome

theorem Synced.start (slots w : Nat) : Synced slots w (.start slots w) where
  world := .init
  sessions := .start slots w
  live slot := by
    simp only [Ticking.start, Tick.Sessions.start_clear, World.init]
    simp
  walks := fun _ member => absurd member List.not_mem_nil

theorem isSome_iff {world after : World} (same : SameFds world.state after.state) (fd : Fd) :
    (after.conns fd).isSome ↔ (world.conns fd).isSome := by
  have lives := same.1 fd
  simpa only [live_iff, Option.isSome_iff_exists] using lives

/-- The server moves on without opening or closing. -/
theorem Synced.moved (synced : Synced slots w t) {world : World} {sessions : Sessions}
    (sound : World.Sound world) (same : SameFds t.world.state world.state)
    (kept : Sessions.Sound slots w sessions) (live : sessions.live = t.sessions.live) :
    Synced slots w { t with world, sessions } where
  world := sound
  sessions := kept
  live slot := by
    rw [live, synced.live, isSome_iff same]
  walks := synced.walks

theorem Synced.onAccept (sized : Sized slots w) (answers : List AcceptAnswer) (synced : Synced slots w t) :
    (onAccept cfg answers t).world = World.onAccept cfg answers t.world ∧
      Synced slots w (onAccept cfg answers t) := by
  induction answers generalizing t with
  | nil => exact ⟨rfl, synced⟩
  | cons answer answers ih =>
      cases answer with
      | interrupted | aborted => exact ih synced
      | outOfFds | failed | wouldBlock => exact ⟨rfl, synced⟩
      | arrived fd added =>
          have refused := synced.moved (synced.world.emit (.refused fd)) (State.emit_sameFds _ _) synced.sessions rfl
          simp only [Ticking.onAccept, World.onAccept]
          split
          · exact ih synced
          next fresh =>
            split
            · exact ih refused
            · split
              · exact ih refused
              · have found : t.world.conns fd = none := Option.not_isSome_iff_eq_none.mp fresh
                obtain ⟨kept, entry⟩ := synced.sessions.sessionAdd sized fd
                apply ih (t := { t with world := t.world.emplace fd, sessions := t.sessions.sessionAdd fd })
                refine ⟨synced.world.emplace found, kept, fun slot => ?_, synced.walks⟩
                rw [entry, synced.live, Int.natCast_inj]
                change _ ↔ slot < slots ∧ (Function.update t.world.conns fd (some {}) slot).isSome
                by_cases own : slot = fd
                · rw [own, Function.update_self, found]
                  simp
                · rw [Function.update_of_ne own]
                  simp only [own, false_and, or_false]

theorem foldl_hear (sized : Sized slots w) (trace : List (Obs Bytes)) {sessions : Sessions}
    (sound : Sessions.Sound slots w sessions) :
    Sessions.Sound slots w (trace.foldl hear sessions) ∧ (trace.foldl hear sessions).live = sessions.live := by
  induction trace generalizing sessions with
  | nil => exact ⟨sound, rfl⟩
  | cons obs trace ih =>
      have step : Sessions.Sound slots w (hear sessions obs) ∧ (hear sessions obs).live = sessions.live := by
        unfold hear
        split
        · split
          · exact sound.onMsg sized _
          · exact ⟨sound, rfl⟩
        · exact ⟨sound, rfl⟩
      obtain ⟨last, same⟩ := ih step.1
      exact ⟨last, same.trans step.2⟩

theorem Synced.handleEvent (sized : Sized slots w) (event : Event) (synced : Synced slots w t) :
    (t.handleEvent k cfg event).world = t.world.handleEvent k cfg event ∧
      Synced slots w (t.handleEvent k cfg event) := by
  obtain ⟨handles, next⟩ := @World.handleEvent_handles k cfg t.world event synced.world
  cases event with
  | accept answers => exact synced.onAccept sized answers
  | signal => exact ⟨rfl, synced.moved next (.refl _) synced.sessions rfl⟩
  | ready what =>
      obtain ⟨heard, same⟩ := foldl_hear sized
        ((t.world.handleReady k cfg what).trace.drop t.world.trace.length) synced.sessions
      exact ⟨rfl, synced.moved next handles.sameFds heard same⟩

theorem Synced.drain (sized : Sized slots w) (events : List Event) (synced : Synced slots w t) :
    (events.foldl (Ticking.handleEvent k cfg) t).world = events.foldl (World.handleEvent k cfg) t.world ∧
      Synced slots w (events.foldl (Ticking.handleEvent k cfg) t) := by
  induction events generalizing t with
  | nil => exact ⟨rfl, synced⟩
  | cons event events ih =>
      obtain ⟨same, next⟩ := @Synced.handleEvent slots w k cfg t sized event synced
      rw [List.foldl_cons, List.foldl_cons, ← same]
      exact ih next

theorem Synced.reapLoop (sized : Sized slots w) (fuel index : Nat) (synced : Synced slots w t) :
    (reapLoop k cfg fuel index t).world = World.reapLoop k cfg fuel index t.world ∧
      Synced slots w (reapLoop k cfg fuel index t) := by
  induction fuel generalizing t index with
  | zero => exact ⟨rfl, synced⟩
  | succ fuel ih =>
      cases at_index : t.world.doomed[index]? with
      | none =>
          simp only [Ticking.reapLoop, World.reapLoop, at_index]
          refine ⟨trivial, synced.moved ⟨?_, synced.world.counted⟩ (.refl _) synced.sessions rfl⟩
          exact synced.world.agree.congr rfl fun _ _ => .rfl
      | some fd =>
          cases found : t.world.conns fd with
          | none =>
              simp only [Ticking.reapLoop, World.reapLoop, at_index, found]
              exact ih (index + 1) synced
          | some c =>
              simp only [Ticking.reapLoop, World.reapLoop, at_index, found]
              obtain ⟨departs, _⟩ := @World.depart_departs k cfg (t.world.emit (.departs t.world.clients fd))
                fd c (synced.world.emit _).agree found
              obtain ⟨kept, entry⟩ := synced.sessions.sessionRemove sized fd
              apply ih (index + 1) (t := { t with
                world := ((t.world.emit (.departs t.world.clients fd)).depart k cfg fd c).close fd
                sessions := t.sessions.sessionRemove fd })
              refine ⟨synced.world.reaped k cfg found, kept, fun slot => ?_, synced.walks⟩
              have lives := isSome_iff departs.sameFds slot
              rw [entry, synced.live, ne_eq, Int.natCast_inj]
              change _ ↔ slot < slots ∧ (Function.update ((t.world.emit _).depart k cfg fd c).conns fd none slot).isSome
              by_cases own : slot = fd
              · rw [own, Function.update_self]
                simp
              · rw [Function.update_of_ne own, lives]
                simp only [own, not_false_eq_true, and_true]
                rfl

theorem Synced.flushDirty (k : Kernel) (cfg : Config) (synced : Synced slots w t) : Synced slots w (t.flushDirty k) := by
  obtain ⟨flush, flushed⟩ := @World.flushDirty_flushes k cfg t.world synced.world
  have sends : Sends True (fun _ => True) t.world.state (t.world.flushDirty k).state := flush.sends
  exact synced.moved flushed sends.sameFds synced.sessions rfl

theorem Synced.tail (sized : Sized slots w) (synced : Synced slots w t) :
    (t.tail k cfg).world = t.world.tail k cfg ∧ Synced slots w (t.tail k cfg) := by
  unfold Ticking.tail World.tail
  split
  · obtain ⟨same, reaped⟩ := @Synced.reapLoop slots w k cfg _ sized
      ((t.flushDirty k).world.doomed.length + (t.flushDirty k).world.size + 1) 0 (synced.flushDirty k cfg)
    exact ⟨congrArg (World.flushDirty k) same, reaped.flushDirty k cfg⟩
  · exact synced.reapLoop sized _ 0

/-- A tick walks the open connections. -/
theorem Synced.tick (sized : Sized slots w) (synced : Synced slots w t) :
    Synced slots w (t.tick k cfg) := by
  obtain ⟨kept, touches⟩ := synced.sessions.runTick sized
  have moved : Synced slots w { t with world := (t.tick k cfg).world, sessions := t.sessions.runTick } := by
    change Synced slots w { t with
      world := if cfg.coalesce then t.world.flushTickRooms k cfg else t.world
      sessions := t.sessions.runTick }
    split
    · obtain ⟨ticks, rooms⟩ := @World.flushTickRooms_ticks k cfg t.world
      have sends : Sends True (fun _ => True) t.world.state (t.world.flushTickRooms k cfg).state :=
        ticks.sends trivial
      exact synced.moved (synced.world.of_sends rooms sends) sends.sameFds kept touches.live
    · exact synced.moved synced.world (.refl _) kept touches.live
  refine ⟨moved.world, kept, moved.live, fun walk among => ?_⟩
  cases List.mem_append.mp among with
  | inl before => exact synced.walks walk before
  | inr now =>
      rw [List.mem_singleton.mp now]
      change t.sessions.runTick.touched.drop t.sessions.touched.length = _
      rw [touches.touched, List.drop_left, synced.sessions.members_eq sized]
      apply List.filter_congr
      intro slot among
      rw [Bool.eq_iff_iff, synced.live]
      exact and_iff_right (List.mem_range.mp among)

theorem Synced.iterate (sized : Sized slots w) (batch : Batch) (synced : Synced slots w t) :
    (t.iterate k cfg batch).world = t.world.iterate k cfg batch ∧ Synced slots w (t.iterate k cfg batch) := by
  have woken := synced.moved (synced.world.emit .wake) (State.emit_sameFds _ _) synced.sessions rfl
  obtain ⟨same, drained⟩ := @Synced.drain slots w k cfg _ sized batch.events woken
  unfold Ticking.iterate World.iterate
  rw [← same]
  generalize batch.events.foldl (Ticking.handleEvent k cfg) _ = drain at drained
  dsimp only
  cases due : batch.tickDue with
  | false =>
      simp only [Bool.false_eq_true, and_false, if_false]
      exact drained.tail sized
  | true =>
      simp only [and_true, if_true]
      exact (drained.tick sized).tail sized

/-- The hooks change nothing that the server does, and the bitmap follows it. -/
theorem Synced.run (sized : Sized slots w) (k : Kernel) (cfg : Config) (batches : List Batch) :
    (run k cfg slots w batches).world = World.run k cfg batches ∧ Synced slots w (run k cfg slots w batches) := by
  have runs : ∀ (batches : List Batch) (t : Ticking), Synced slots w t →
      (batches.foldl (fun t batch => if t.world.running then t.iterate k cfg batch else t) t).world =
          batches.foldl (fun w batch => if w.running then w.iterate k cfg batch else w) t.world ∧
        Synced slots w
          (batches.foldl (fun t batch => if t.world.running then t.iterate k cfg batch else t) t) := by
    intro batches
    induction batches with
    | nil => exact fun t synced => ⟨rfl, synced⟩
    | cons batch batches ih =>
        intro t synced
        obtain ⟨same, next⟩ := @Synced.iterate slots w k cfg t sized batch synced
        rw [List.foldl_cons, List.foldl_cons]
        cases running : t.world.running with
        | false => exact ih t synced
        | true =>
            simp only [if_true, ← same]
            exact ih _ next
  exact runs batches _ (.start slots w)

end Ticking

end NetEngine.Epoll.Server

namespace NetEngine.Tick

open Bitmap (member members)
open Epoll.Server (World Ticking)

/-- The counter, the bitmap and the walk agree on which sessions there are; under
`server.cpp` these are the open connections, as long as each has a slot. -/
theorem tick_walks_sessions {slots w : Nat} (sized : Sized slots w) :
    (∀ hooks : List Hook,
      let s := Sessions.run slots w hooks
      s.liveN.toNat = (members s.live).length ∧
        (∀ slot, member s.live slot = true ↔ slot < slots ∧ AddedSince hooks slot) ∧
        s.runTick.touched = s.touched ++ (List.range slots).filter (member s.live) ∧
        ∀ offset ∈ s.runTick.accesses, offset + 8 ≤ slots * w) ∧
      ∀ (k : Epoll.Kernel) (cfg : Epoll.Server.Config) (batches : List Epoll.Batch),
        let t := Ticking.run k cfg slots w batches
        t.world = World.run k cfg batches ∧
          ∀ walk ∈ t.walks, (∀ fd, (walk.1.conns fd).isSome → fd < slots) →
            walk.2.Pairwise (· < ·) ∧ ∀ fd, fd ∈ walk.2 ↔ (walk.1.conns fd).isSome := by
  constructor
  · intro hooks
    obtain ⟨sound, held⟩ := Sessions.Sound.run sized hooks
    obtain ⟨after, touches⟩ := sound.runTick sized
    refine ⟨sound.counted, held, ?_, after.accesses⟩
    rw [touches.touched, sound.members_eq sized]
  · intro k cfg batches
    obtain ⟨same, synced⟩ := Ticking.Synced.run sized k cfg batches
    refine ⟨same, fun walk among below => ?_⟩
    rw [synced.walks walk among]
    constructor
    · exact List.Pairwise.filter _ List.pairwise_lt_range
    · intro fd
      rw [List.mem_filter, List.mem_range]
      exact ⟨And.right, fun opened => ⟨below fd opened, opened⟩⟩

/-- Two slots past the first word: one session is added twice, one removed again. -/
theorem tick_walks_sessions_boundary :
    (Sessions.run 66 64 [.add 5, .add 64, .add 64, .add 66, .remove (-1), .remove 5]).runTick.touched =
      [64] := by
  have sized : Sized 66 64 := ⟨by decide, by decide, by decide⟩
  rw [((tick_walks_sessions sized).1 _).2.2.1]
  decide

end NetEngine.Tick
