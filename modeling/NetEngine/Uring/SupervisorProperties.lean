import NetEngine.Library.Rounds
import NetEngine.Uring.Supervisor
import NetEngine.Uring.ThreadCtlProperties

/-! Boot and shutdown, whatever the interleaving: where `main` stands says how far each
control block is, and that is all that the order of boot and shutdown needs. -/

set_option autoImplicit false

namespace NetEngine.Supervisor

open ThreadCtl

/-! ## How far a control block is -/

/-- The control block after the next step of its thread. -/
def Control.turned (guard : ThreadRole) (tid : BitVec 32) (c : Control) : Control :=
  { c with
    ctl := (trampoline guard guard tid c.ctl c.thread).1
    thread := (trampoline guard guard tid c.ctl c.thread).2 }

/-- 1 is wired, 2 started, 3 seen running, 4 asked to stop, and 5 joined. -/
structure Control.At (guard : ThreadRole) (tid : BitVec 32) (level : Nat) (c : Control) : Prop where
  ok : c.thread.Ok guard tid c.ctl
  begun : c.thread ≠ .idle ↔ 2 ≤ level
  masked : 2 ≤ level → c.masked = true
  joinable : c.joinable = true ↔ 2 ≤ level ∧ level < 5
  early : level < 4 → ¬ c.ctl.Past
  seen : 3 ≤ level → c.ctl.state ≠ .starting
  past : 4 ≤ level → c.ctl.Past
  joined : 5 ≤ level → c.thread = .returned

section Controls

variable {guard : ThreadRole} {tid : BitVec 32} {level : Nat} {c : Control}

theorem trampoline_begun {ctl : Ctl} {thread : Thread} :
    (trampoline guard guard tid ctl thread).2 ≠ .idle ↔ thread ≠ .idle := by
  cases thread with
  | idle => exact iff_of_false (fun wrong => wrong rfl) fun wrong => wrong rfl
  | published _ | refused _ =>
      simp only [trampoline]
      split <;> simp
  | attached | looping =>
      simp only [trampoline]
      split <;> simp
  | _ => simp [trampoline]

namespace Control.At

theorem init : At guard tid 0 {} where
  ok := .inl rfl
  begun := by simp
  masked long := absurd long (by decide)
  joinable := by simp
  early _ past := by rcases past with wrong | wrong <;> cases wrong
  seen long := absurd long (by decide)
  past long := absurd long (by decide)
  joined long := absurd long (by decide)

/-- A step of its thread leaves it where it is. -/
theorem thread (here : c.At guard tid level) : (c.turned guard tid).At guard tid level := by
  obtain ⟨changes, ok⟩ : Changes .thread c.ctl (c.turned guard tid).ctl ∧
      (c.turned guard tid).thread.Ok guard tid (c.turned guard tid).ctl := trampoline_ok here.ok
  refine ⟨ok, trampoline_begun.trans here.begun, here.masked, here.joinable, fun short past => ?_,
    fun long starting => ?_, fun long => changes.past (here.past long), fun long => ?_⟩
  · have calm := here.early short
    cases changes with
    | none same _ => exact calm (by rwa [Ctl.Past, ← same])
    | moved moves same _ =>
        generalize before : c.ctl.state = state at moves
        cases moves with
        | promote => rcases past with wrong | wrong <;> simp [same] at wrong
        | stop => exact calm (.inl before)
  · have seen := here.seen long
    cases changes with
    | none same _ => exact seen (same ▸ starting)
    | moved moves same _ =>
        rw [same] at starting
        subst starting
        generalize c.ctl.state = state at moves
        cases moves
  · simp [turned, here.joined long, trampoline]

theorem idle (here : c.At guard tid level) (short : level < 2) : c.thread = .idle := by
  by_contra begun
  exact absurd (here.begun.mp begun) (Nat.not_le_of_lt short)

theorem unexposed (here : c.At guard tid level) : c.exposed = false := by
  unfold exposed
  by_cases long : 2 ≤ level
  · simp [here.masked long]
  · simp [here.idle (Nat.lt_of_not_le long)]

theorem untrapped (here : c.At guard tid level) : c.thread ≠ .trapped := by
  intro trapped
  have ok := here.ok
  rwa [trapped] at ok

/-- The handle of a thread that is not there, or that was joined, may be dropped. -/
theorem free (here : c.At guard tid level) (outside : level < 2 ∨ 5 ≤ level) :
    c.joinable = false := by
  cases joinable : c.joinable with
  | false => rfl
  | true =>
      have inside := here.joinable.mp joinable
      omega

theorem wired (here : c.At guard tid 0) : c.At guard tid 1 where
  ok := here.ok
  begun := here.begun.trans (by decide)
  masked long := absurd long (by decide)
  joinable := here.joinable.trans (by decide)
  early _ := here.early (by decide)
  seen long := absurd long (by decide)
  past long := absurd long (by decide)
  joined long := absurd long (by decide)

theorem started (here : c.At guard tid 1) : (c.start true).At guard tid 2 := by
  have ok := here.ok
  rw [here.idle (by decide)] at ok
  exact {
    ok := ok
    begun := by simp [start]
    masked := fun _ => rfl
    joinable := by simp [start]
    early := fun _ => here.early (by decide)
    seen := fun long => absurd long (by decide)
    past := fun long => absurd long (by decide)
    joined := fun long => absurd long (by decide) }

theorem running (here : c.At guard tid 2) (running : c.ctl.state = .running) : c.At guard tid 3 where
  ok := here.ok
  begun := here.begun.trans (by decide)
  masked _ := here.masked (by decide)
  joinable := here.joinable.trans (by decide)
  early _ := here.early (by decide)
  seen _ := by simp [running]
  past long := absurd long (by decide)
  joined long := absurd long (by decide)

/-- Between the barrier and the stop `_state` is running. -/
theorem state (here : c.At guard tid 3) : c.ctl.state = .running := by
  have seen := here.seen (by decide)
  have calm := here.early (by decide)
  cases state : c.ctl.state with
  | starting => exact absurd state seen
  | running => rfl
  | draining => exact absurd (.inl state) calm
  | stopped => exact absurd (.inr state) calm

theorem asked (here : c.At guard tid 3) :
    At guard tid 4 { c with ctl := c.ctl.store .stopper .draining } where
  ok := here.ok.drained (.inr here.state)
  begun := here.begun.trans (by decide)
  masked _ := here.masked (by decide)
  joinable := here.joinable.trans (by decide)
  early short := absurd short (by decide)
  seen _ := by simp [Ctl.store]
  past _ := .inl rfl
  joined long := absurd long (by decide)

/-- `join` waits for the thread, and then finds it stopped. -/
theorem join_eq (here : c.At guard tid 4) :
    c.join = if c.thread = .returned then .passed else .waiting := by
  have joinable : c.joinable = true := here.joinable.mpr (by decide)
  simp only [Control.join, joinable, if_true, ThreadCtl.join]
  split
  next returned =>
    have ok := here.ok
    rw [returned] at ok
    rw [if_pos ok.2]
  · rfl

theorem left (here : c.At guard tid 4) (returned : c.thread = .returned) :
    At guard tid 5 { c with joinable := false } where
  ok := here.ok
  begun := here.begun.trans (by decide)
  masked _ := here.masked (by decide)
  joinable := by simp
  early short := absurd short (by decide)
  seen _ := here.seen (by decide)
  past _ := here.past (by decide)
  joined _ := returned

end Control.At

/-- One step of a `request_stop` on a thread that runs. -/
theorem requestStop_running {ctl : Ctl} (running : ctl.state = .running) {call : Stopper}
    (fresh : call = .called ∨ call = .observed .running) :
    requestStop ctl call = (ctl, .observed .running) ∧ call = .called ∨
      requestStop ctl call = (ctl.store .stopper .draining, .returned) ∧ call = .observed .running := by
  rcases fresh with rfl | rfl
  · exact .inl ⟨by simp [requestStop, running], rfl⟩
  · exact .inr ⟨by simp [requestStop, Ctl.compareExchange, running], rfl⟩

end Controls

/-! ## Where main stands -/

namespace Main

/-- How far worker `i` is. -/
@[simp] def level (i : Nat) : Main → Nat
  | .token | .mask => 0
  | .emplace j | .install j => if i < j then 1 else 0
  | .start j => if i < j then 2 else 1
  | .barrier j => if i < j then 3 else 2
  | .wire | .startAcceptor | .awaitAcceptor | .sigwait | .stopAcceptor _ | .joinAcceptor => 3
  | .stop j call => if i < j ∨ i = j ∧ call = .returned then 4 else 3
  | .join j => if i < j then 5 else 4
  | .destroy | .returned | .trapped => 5

@[simp] def acceptorLevel : Main → Nat
  | .startAcceptor => 1
  | .awaitAcceptor => 2
  | .sigwait => 3
  | .stopAcceptor call => if call = .returned then 4 else 3
  | .joinAcceptor => 4
  | .stop .. | .join _ | .destroy | .returned | .trapped => 5
  | _ => 0

/-- A `request_stop` of `main` finds its thread running. -/
def Fresh (call : Stopper) : Prop := call = .called ∨ call = .observed .running ∨ call = .returned

/-- The indices are inside, and `size` counts what was emplaced. -/
@[simp] def Fits (k size : Nat) : Main → Prop
  | .token | .mask => size = 0
  | .emplace i => i ≤ k ∧ size = i
  | .install i => i < k ∧ size = i + 1
  | .start i | .barrier i | .join i => i ≤ k ∧ size = k
  | .stop i call => i ≤ k ∧ size = k ∧ Fresh call
  | .stopAcceptor call => size = k ∧ Fresh call
  | .trapped => False
  | _ => size = k

end Main

structure Inv (k : Nat) (tids : Nat → BitVec 32) (tid : BitVec 32) (w : World) : Prop where
  fits : w.main.Fits k w.size
  token : w.main ≠ .token → w.tlsRole = .supervisor
  masked : w.masked = false ↔ w.main = .token ∨ w.main = .mask
  workers : ∀ i < k, (w.workers i).At .worker (tids i) (w.main.level i)
  pipes : ∀ i < k, 1 ≤ w.main.level i →
    (w.workers i).fromAcceptor = some i ∧ (w.workers i).toAcceptor = some i
  acceptor : w.acceptor.At .acceptor tid w.main.acceptorLevel
  edges : 1 ≤ w.main.acceptorLevel → ∀ i < k,
    w.acceptor.toWorker i = some i ∧ w.acceptor.fromWorker i = some i
  killed : w.killed = true → w.masked = false

namespace Inv

variable {k : Nat} {tids : Nat → BitVec 32} {tid : BitVec 32} {w : World}

theorem init : Inv k tids tid {} where
  fits := rfl
  token early := absurd rfl early
  masked := by simp
  workers _ _ := .init
  pipes _ _ long := absurd long (by simp [Main.level])
  acceptor := .init
  edges long := absurd long (by simp [Main.acceptorLevel])
  killed wrong := by cases wrong

/-- `main` goes on, and no control block gets further by it. -/
theorem goes (inv : Inv k tids tid w) {main : Main} (fits : main.Fits k w.size)
    (same : w.main ≠ .token)
    (masks : w.masked = false ↔ main = .token ∨ main = .mask)
    (workers : ∀ i < k, main.level i = w.main.level i)
    (acceptor : main.acceptorLevel = w.main.acceptorLevel) :
    Inv k tids tid { w with main } where
  fits := fits
  token _ := inv.token same
  masked := masks
  workers i inside := by
    rw [workers i inside]
    exact inv.workers i inside
  pipes i inside long := by
    rw [workers i inside] at long
    exact inv.pipes i inside long
  acceptor := by
    rw [acceptor]
    exact inv.acceptor
  edges long := inv.edges (acceptor ▸ long)
  killed := inv.killed

/-- `main` goes on with one worker. -/
theorem moves (inv : Inv k tids tid w) {main : Main} {i : Nat} {c : WorkerCtl} {size : Nat}
    (fits : main.Fits k size) (same : w.main ≠ .token)
    (masks : w.masked = false ↔ main = .token ∨ main = .mask)
    (own : i < k → c.At .worker (tids i) (main.level i))
    (pipes : i < k → 1 ≤ main.level i → c.fromAcceptor = some i ∧ c.toAcceptor = some i)
    (others : ∀ j < k, j ≠ i → main.level j = w.main.level j)
    (acceptor : main.acceptorLevel = w.main.acceptorLevel) :
    Inv k tids tid { w.setWorker i c with main, size } where
  fits := fits
  token _ := inv.token same
  masked := masks
  workers j inside := by
    by_cases here : j = i
    · subst here
      simp only [World.setWorker, Function.update_self]
      exact own inside
    · simp only [World.setWorker, Function.update_of_ne here, others j inside here]
      exact inv.workers j inside
  pipes j inside long := by
    by_cases here : j = i
    · subst here
      simp only [World.setWorker, Function.update_self]
      exact pipes inside long
    · simp only [others j inside here] at long
      simp only [World.setWorker, Function.update_of_ne here]
      exact inv.pipes j inside long
  acceptor := by
    simp only [acceptor]
    exact inv.acceptor
  edges long := inv.edges (acceptor ▸ long)
  killed := inv.killed

/-- `main` goes on with the acceptor. -/
theorem turns (inv : Inv k tids tid w) {main : Main} {c : AcceptorCtl} (fits : main.Fits k w.size)
    (same : w.main ≠ .token) (masks : w.masked = false ↔ main = .token ∨ main = .mask)
    (workers : ∀ i < k, main.level i = w.main.level i)
    (own : c.At .acceptor tid main.acceptorLevel)
    (edges : ∀ i < k, c.toWorker i = some i ∧ c.fromWorker i = some i) :
    Inv k tids tid { w with acceptor := c, main } where
  fits := fits
  token _ := inv.token same
  masked := masks
  workers i inside := by
    rw [workers i inside]
    exact inv.workers i inside
  pipes i inside long := by
    rw [workers i inside] at long
    exact inv.pipes i inside long
  acceptor := own
  edges _ := edges
  killed := inv.killed

/-! ## The steps of main -/

open Main World

theorem emplace (inv : Inv k tids tid w) {i : Nat} (here : w.main = .emplace i) :
    Inv k tids tid (w.supervise k) := by
  obtain ⟨inside, size⟩ : i ≤ k ∧ w.size = i := by simpa [here, Fits] using inv.fits
  have masks : w.masked = true := by simpa [here] using inv.masked
  have late : w.main ≠ .token := by simp [here]
  by_cases more : i < k
  · have room : w.size < k := size ▸ more
    simp only [supervise, here, more, room, if_true]
    subst size
    refine inv.moves ⟨more, rfl⟩ late (by simp [masks]) (fun _ => ?_) (fun _ long => ?_)
      (fun j _ _ => by simp [here, level]) (by simp [here, acceptorLevel])
    · simpa [level] using Control.At.init
    · simp [level] at long
  · have done : i = k := Nat.le_antisymm inside (Nat.le_of_not_lt more)
    simp only [supervise, here, more, if_false]
    refine inv.goes ⟨Nat.zero_le _, size.trans done⟩ late (by simp [masks])
      (fun j inside => ?_) (by simp [here, acceptorLevel])
    simp [here, level, done, inside]

theorem install (inv : Inv k tids tid w) {i : Nat} (here : w.main = .install i) :
    Inv k tids tid (w.supervise k) := by
  obtain ⟨inside, size⟩ : i < k ∧ w.size = i + 1 := by simpa [here, Fits] using inv.fits
  have masks : w.masked = true := by simpa [here] using inv.masked
  have index : i < w.size := by omega
  simp only [supervise, here, index, if_true]
  refine inv.moves ⟨inside, size⟩ (by simp [here]) (by simp [masks]) (fun _ => ?_)
    (fun _ _ => ⟨rfl, rfl⟩) (fun j _ apart => ?_) (by simp [here, acceptorLevel])
  · have before := inv.workers i inside
    simp only [here, level, Nat.lt_irrefl, if_false] at before
    simpa [level] using before.wired
  · have same : j < i + 1 ↔ j < i := by omega
    simp [here, level, same]

/-- `start` passes its checks. -/
theorem supervise_start (inv : Inv k tids tid w) {i : Nat} (here : w.main = .start i)
    (more : i < k) :
    w.supervise k =
      { w.setWorker i { w.workers i with toControl := (w.workers i).start true } with
        main := .start (i + 1) } := by
  obtain ⟨_, size⟩ : i ≤ k ∧ w.size = k := by simpa [here, Fits] using inv.fits
  have masks : w.masked = true := by simpa [here] using inv.masked
  have index : i < w.size := size ▸ more
  obtain ⟨reads, writes⟩ := inv.pipes i more (by simp [here, level])
  have free := (inv.workers i more).free (.inl (by simp [here, level]))
  have covered : (w.workers i).start w.masked = (w.workers i).start true := by rw [masks]
  simp only [World.supervise, here, index, if_true, reads, writes, free, reduceCtorEq,
    Bool.false_eq_true, or_false, if_false, covered]

theorem start (inv : Inv k tids tid w) {i : Nat} (here : w.main = .start i) :
    Inv k tids tid (w.supervise k) := by
  obtain ⟨inside, size⟩ : i ≤ k ∧ w.size = k := by simpa [here, Fits] using inv.fits
  have masks : w.masked = true := by simpa [here] using inv.masked
  have late : w.main ≠ .token := by simp [here]
  by_cases more : i < k
  · have before := inv.workers i more
    have pipes := inv.pipes i more (by simp [here, level])
    have fits : Fits k w.size (.start (i + 1)) := ⟨more, size⟩
    simp only [here, level, Nat.lt_irrefl, if_false] at before
    rw [inv.supervise_start here more]
    refine inv.moves fits late (by simp [masks]) (fun _ => ?_) (fun _ _ => pipes)
      (fun j _ apart => ?_) (by simp [here, acceptorLevel])
    · simpa [level] using before.started
    · have same : j < i + 1 ↔ j < i := by omega
      simp [here, level, same]
  · have index : ¬ i < w.size := size ▸ more
    have done : i = k := Nat.le_antisymm inside (Nat.le_of_not_lt more)
    simp only [supervise, here, index, if_false]
    refine inv.goes ⟨Nat.zero_le _, size⟩ late (by simp [masks]) (fun j inside => ?_)
      (by simp [here, acceptorLevel])
    simp [here, level, done, inside]

theorem barrier (inv : Inv k tids tid w) {i : Nat} (here : w.main = .barrier i) :
    Inv k tids tid (w.supervise k) := by
  obtain ⟨inside, size⟩ : i ≤ k ∧ w.size = k := by simpa [here, Fits] using inv.fits
  have masks : w.masked = true := by simpa [here] using inv.masked
  have late : w.main ≠ .token := by simp [here]
  by_cases more : i < k
  · have index : i < w.size := size ▸ more
    simp only [supervise, here, index, if_true]
    split
    next running =>
      have before := inv.workers i more
      simp only [here, level, Nat.lt_irrefl, if_false] at before
      have same : w.setWorker i (w.workers i) = w := by simp [setWorker]
      have next : Inv k tids tid { w.setWorker i (w.workers i) with main := .barrier (i + 1) } :=
        inv.moves ⟨more, size⟩ late (by simp [masks])
          (fun _ => by simpa [level] using before.running running)
          (fun _ _ => inv.pipes i more (by simp [here, level]))
          (fun j _ apart => by
            have same : j < i + 1 ↔ j < i := by omega
            simp [here, level, same])
          (by simp [here, acceptorLevel])
      rwa [same] at next
    · exact inv
  · have index : ¬ i < w.size := size ▸ more
    have done : i = k := Nat.le_antisymm inside (Nat.le_of_not_lt more)
    simp only [supervise, here, index, if_false]
    refine inv.goes size late (by simp [masks]) (fun j inside => ?_)
      (by simp [here, acceptorLevel])
    simp [here, level, done, inside]

theorem wire (inv : Inv k tids tid w) (here : w.main = .wire) : Inv k tids tid (w.supervise k) := by
  have size : w.size = k := by simpa [here, Fits] using inv.fits
  have masks : w.masked = true := by simpa [here] using inv.masked
  have before := inv.acceptor
  simp only [here, acceptorLevel] at before
  simp only [supervise, here]
  refine inv.turns size (by simp [here]) (by simp [masks]) (fun _ _ => by simp [here, level])
    (by simpa [acceptorLevel] using before.wired) fun i inside => ?_
  simp [inside]

theorem supervise_startAcceptor (inv : Inv k tids tid w) (here : w.main = .startAcceptor) :
    w.supervise k =
      { w with
        acceptor := { w.acceptor with toControl := w.acceptor.start true }
        main := .awaitAcceptor } := by
  have masks : w.masked = true := by simpa [here] using inv.masked
  have edges := inv.edges (by simp [here, acceptorLevel])
  have free := inv.acceptor.free (.inl (by simp [here, acceptorLevel]))
  have whole : ((List.range k).any fun i =>
      w.acceptor.toWorker i = none || w.acceptor.fromWorker i = none) = false := by
    rw [List.any_eq_false]
    intro i member
    obtain ⟨out, back⟩ := edges i (List.mem_range.mp member)
    simp [out, back]
  have covered : w.acceptor.start w.masked = w.acceptor.start true := by rw [masks]
  simp only [World.supervise, here, whole, free, Bool.false_eq_true, or_self, if_false, covered]

theorem startAcceptor (inv : Inv k tids tid w) (here : w.main = .startAcceptor) :
    Inv k tids tid (w.supervise k) := by
  have size : w.size = k := by simpa [here, Fits] using inv.fits
  have masks : w.masked = true := by simpa [here] using inv.masked
  have fits : Fits k w.size .awaitAcceptor := size
  have before := inv.acceptor
  have edges := inv.edges (by simp [here, acceptorLevel])
  simp only [here, acceptorLevel] at before
  rw [inv.supervise_startAcceptor here]
  exact inv.turns (c := { w.acceptor with toControl := w.acceptor.start true }) fits
    (by simp [here]) (by simp [masks]) (fun _ _ => by simp [here, level]) before.started edges

theorem awaitAcceptor (inv : Inv k tids tid w) (here : w.main = .awaitAcceptor) :
    Inv k tids tid (w.supervise k) := by
  have size : w.size = k := by simpa [here, Fits] using inv.fits
  have masks : w.masked = true := by simpa [here] using inv.masked
  have before := inv.acceptor
  simp only [here, acceptorLevel] at before
  simp only [supervise, here]
  split
  next running =>
    exact inv.turns size (by simp [here]) (by simp [masks]) (fun _ _ => by simp [here, level])
      (by simpa [acceptorLevel] using before.running running)
      (inv.edges (by simp [here, acceptorLevel]))
  · exact inv

theorem sigwait (inv : Inv k tids tid w) (here : w.main = .sigwait) :
    Inv k tids tid (w.supervise k) := by
  have size : w.size = k := by simpa [here, Fits] using inv.fits
  have masks : w.masked = true := by simpa [here] using inv.masked
  simp only [supervise, here]
  split
  · have quiet : Inv k tids tid { w with pending := false } :=
      ⟨inv.fits, inv.token, inv.masked, inv.workers, inv.pipes, inv.acceptor, inv.edges, inv.killed⟩
    have fits : Fits k w.size (.stopAcceptor .called) := ⟨size, .inl rfl⟩
    exact quiet.goes fits (by simp [here]) (by simp [masks])
      (fun _ _ => by simp [here, level]) (by simp [here, acceptorLevel])
  · exact inv

theorem stopAcceptor (inv : Inv k tids tid w) {call : Stopper} (here : w.main = .stopAcceptor call) :
    Inv k tids tid (w.supervise k) := by
  obtain ⟨size, fresh⟩ : w.size = k ∧ Fresh call := by simpa [here, Fits] using inv.fits
  have masks : w.masked = true := by simpa [here] using inv.masked
  have late : w.main ≠ .token := by simp [here]
  have before := inv.acceptor
  have edges := inv.edges (by simp only [here, acceptorLevel]; split <;> decide)
  simp only [here, acceptorLevel] at before
  simp only [supervise, here]
  by_cases back : call = .returned
  · rw [if_pos back]
    exact inv.goes size late (by simp [masks]) (fun _ _ => by simp [here, level])
      (by simp [here, acceptorLevel, back])
  · rw [if_neg back] at before ⊢
    have going : call = .called ∨ call = .observed .running :=
      fresh.imp_right fun rest => rest.resolve_right back
    rcases requestStop_running before.state going with ⟨same, _⟩ | ⟨same, _⟩
    · have fits : Fits k w.size (.stopAcceptor (.observed .running)) := ⟨size, .inr (.inl rfl)⟩
      rw [same]
      exact inv.turns fits late (by simp [masks]) (fun _ _ => by simp [here, level])
        (by simpa [acceptorLevel] using before) edges
    · have fits : Fits k w.size (.stopAcceptor .returned) := ⟨size, .inr (.inr rfl)⟩
      rw [same]
      exact inv.turns fits late (by simp [masks]) (fun _ _ => by simp [here, level])
        (by simpa [acceptorLevel] using before.asked) edges

theorem joinAcceptor (inv : Inv k tids tid w) (here : w.main = .joinAcceptor) :
    Inv k tids tid (w.supervise k) := by
  have size : w.size = k := by simpa [here, Fits] using inv.fits
  have masks : w.masked = true := by simpa [here] using inv.masked
  have before := inv.acceptor
  simp only [here, acceptorLevel] at before
  simp only [supervise, here, before.join_eq]
  by_cases returned : w.acceptor.thread = .returned
  · have fits : Fits k w.size (.stop 0 .called) := ⟨Nat.zero_le _, size, .inl rfl⟩
    rw [if_pos returned]
    exact inv.turns fits (by simp [here]) (by simp [masks]) (fun _ _ => by simp [here, level])
      (before.left returned) (inv.edges (by simp [here, acceptorLevel]))
  · rw [if_neg returned]
    exact inv

theorem stop (inv : Inv k tids tid w) {i : Nat} {call : Stopper} (here : w.main = .stop i call) :
    Inv k tids tid (w.supervise k) := by
  obtain ⟨inside, size, fresh⟩ : i ≤ k ∧ w.size = k ∧ Fresh call := by
    simpa [here, Fits] using inv.fits
  have masks : w.masked = true := by simpa [here] using inv.masked
  have late : w.main ≠ .token := by simp [here]
  by_cases more : i < k
  · have index : i < w.size := size ▸ more
    have before := inv.workers i more
    have pipes := inv.pipes i more (by simp only [here, level]; split <;> decide)
    simp only [supervise, here, index, if_true]
    by_cases back : call = .returned
    · rw [if_pos back]
      refine inv.goes ⟨more, size, .inl rfl⟩ late (by simp [masks]) (fun j _ => ?_)
        (by simp [here, acceptorLevel])
      have same : j < i + 1 ↔ j < i ∨ j = i := by omega
      simp [here, level, back, same]
    · simp only [here, level, Nat.lt_irrefl, false_or, true_and, back, if_false] at before ⊢
      have going : call = .called ∨ call = .observed .running :=
        fresh.imp_right fun rest => rest.resolve_right back
      rcases requestStop_running before.state going with ⟨same, _⟩ | ⟨same, _⟩
      · have fits : Fits k w.size (.stop i (.observed .running)) := ⟨inside, size, .inr (.inl rfl)⟩
        rw [same]
        refine inv.moves fits late (by simp [masks]) (fun _ => ?_) (fun _ _ => pipes)
          (fun j _ apart => ?_) (by simp [here, acceptorLevel])
        · simpa [level] using before
        · simp [here, level, apart]
      · have fits : Fits k w.size (.stop i .returned) := ⟨inside, size, .inr (.inr rfl)⟩
        rw [same]
        refine inv.moves fits late (by simp [masks]) (fun _ => ?_) (fun _ _ => pipes)
          (fun j _ apart => ?_) (by simp [here, acceptorLevel])
        · simpa [level] using before.asked
        · simp [here, level, apart]
  · have index : ¬ i < w.size := size ▸ more
    have done : i = k := Nat.le_antisymm inside (Nat.le_of_not_lt more)
    simp only [supervise, here, index, if_false]
    refine inv.goes ⟨Nat.zero_le _, size⟩ late (by simp [masks]) (fun j inside => ?_)
      (by simp [here, acceptorLevel])
    simp [here, level, done, inside]

theorem join (inv : Inv k tids tid w) {i : Nat} (here : w.main = .join i) :
    Inv k tids tid (w.supervise k) := by
  obtain ⟨inside, size⟩ : i ≤ k ∧ w.size = k := by simpa [here, Fits] using inv.fits
  have masks : w.masked = true := by simpa [here] using inv.masked
  have late : w.main ≠ .token := by simp [here]
  by_cases more : i < k
  · have index : i < w.size := size ▸ more
    have before := inv.workers i more
    simp only [here, level, Nat.lt_irrefl, if_false] at before
    simp only [supervise, here, index, if_true, before.join_eq]
    by_cases returned : (w.workers i).thread = .returned
    · have fits : Fits k w.size (.join (i + 1)) := ⟨more, size⟩
      rw [if_pos returned]
      refine inv.moves fits late (by simp [masks]) (fun _ => ?_)
        (fun _ _ => inv.pipes i more (by simp [here, level])) (fun j _ apart => ?_)
        (by simp [here, acceptorLevel])
      · have next : level i (.join (i + 1)) = 5 := by simp [level]
        rw [next]
        exact before.left returned
      · have same : j < i + 1 ↔ j < i := by omega
        simp [here, level, same]
    · rw [if_neg returned]
      exact inv
  · have index : ¬ i < w.size := size ▸ more
    have done : i = k := Nat.le_antisymm inside (Nat.le_of_not_lt more)
    simp only [supervise, here, index, if_false]
    refine inv.goes size late (by simp [masks]) (fun j inside => ?_)
      (by simp [here, acceptorLevel])
    simp [here, level, done, inside]

/-- No handle that is destroyed is joinable. -/
theorem supervise_destroy (inv : Inv k tids tid w) (here : w.main = .destroy) :
    w.supervise k = { w with main := .returned } := by
  have size : w.size = k := by simpa [here, Fits] using inv.fits
  have acceptor : w.acceptor.joinable = false :=
    inv.acceptor.free (.inr (by simp [here, acceptorLevel]))
  have workers : ((List.range w.size).any fun i => (w.workers i).joinable) = false := by
    rw [List.any_eq_false]
    intro i member
    have inside : i < k := size ▸ List.mem_range.mp member
    simp [(inv.workers i inside).free (.inr (by simp [here, level]))]
  simp only [World.supervise, here, acceptor, workers, Bool.false_eq_true, or_self, if_false]

theorem destroy (inv : Inv k tids tid w) (here : w.main = .destroy) :
    Inv k tids tid (w.supervise k) := by
  have size : w.size = k := by simpa [here, Fits] using inv.fits
  have masks : w.masked = true := by simpa [here] using inv.masked
  rw [inv.supervise_destroy here]
  exact inv.goes size (by simp [here]) (by simp [masks]) (fun _ _ => by simp [here, level])
    (by simp [here, acceptorLevel])

/-- Whatever `main` does next. -/
theorem supervise (inv : Inv k tids tid w) (alive : w.killed = false) :
    Inv k tids tid (w.supervise k) := by
  cases here : w.main with
  | token =>
      have size : w.size = 0 := by simpa [here, Fits] using inv.fits
      have masks : w.masked = false := inv.masked.mpr (.inl here)
      simp only [World.supervise, here]
      exact {
        fits := size
        token := fun _ => rfl
        masked := by simp [masks]
        workers := fun i inside => by simpa [here, level] using inv.workers i inside
        pipes := fun i inside long => absurd long (by simp [level])
        acceptor := by simpa [here, acceptorLevel] using inv.acceptor
        edges := fun long => absurd long (by simp [acceptorLevel])
        killed := inv.killed }
  | mask =>
      have size : w.size = 0 := by simpa [here, Fits] using inv.fits
      simp only [World.supervise, here]
      exact {
        fits := ⟨Nat.zero_le _, size⟩
        token := fun _ => inv.token (by simp [here])
        masked := by simp
        workers := fun i inside => by simpa [here, level] using inv.workers i inside
        pipes := fun i inside long => absurd long (by simp [level])
        acceptor := by simpa [here, acceptorLevel] using inv.acceptor
        edges := fun long => absurd long (by simp [acceptorLevel])
        killed := fun wrong => absurd (alive ▸ wrong) (by decide) }
  | emplace i => exact inv.emplace here
  | install i => exact inv.install here
  | start i => exact inv.start here
  | barrier i => exact inv.barrier here
  | wire => exact inv.wire here
  | startAcceptor => exact inv.startAcceptor here
  | awaitAcceptor => exact inv.awaitAcceptor here
  | sigwait => exact inv.sigwait here
  | stopAcceptor call => exact inv.stopAcceptor here
  | joinAcceptor => exact inv.joinAcceptor here
  | stop i call => exact inv.stop here
  | join i => exact inv.join here
  | destroy => exact inv.destroy here
  | returned | trapped =>
      simp only [World.supervise, here]
      exact inv

/-! ## The other steps -/

theorem worker (inv : Inv k tids tid w) (i : Nat) :
    Inv k tids tid
      (w.setWorker i { w.workers i with toControl := (w.workers i).turned .worker (tids i) }) where
  fits := inv.fits
  token := inv.token
  masked := inv.masked
  workers j inside := by
    by_cases here : j = i
    · subst here
      simp only [World.setWorker, Function.update_self]
      exact (inv.workers j inside).thread
    · simp only [World.setWorker, Function.update_of_ne here]
      exact inv.workers j inside
  pipes j inside long := by
    by_cases here : j = i
    · subst here
      simp only [World.setWorker, Function.update_self]
      exact inv.pipes j inside long
    · simp only [World.setWorker, Function.update_of_ne here]
      exact inv.pipes j inside long
  acceptor := inv.acceptor
  edges := inv.edges
  killed := inv.killed

theorem size_le (inv : Inv k tids tid w) : w.size ≤ k := by
  have fits := inv.fits
  cases here : w.main <;> simp only [here, Fits] at fits <;> omega

/-- Once `main` has the signals blocked, no thread lets them in. -/
theorem unexposed (inv : Inv k tids tid w) (masked : w.masked = true) : w.exposed = false := by
  have workers : ((List.range w.size).any fun i => (w.workers i).exposed) = false := by
    rw [List.any_eq_false]
    intro i member
    simp [(inv.workers i (Nat.lt_of_lt_of_le (List.mem_range.mp member) inv.size_le)).unexposed]
  simp [World.exposed, masked, workers, inv.acceptor.unexposed]

theorem signal (inv : Inv k tids tid w) : Inv k tids tid w.signal := by
  unfold World.signal
  split
  next exposed =>
    refine { inv with killed := fun _ => ?_ }
    cases masked : w.masked with
    | false => rfl
    | true => exact absurd exposed (by simp [inv.unexposed masked])
  next => exact { inv with }

theorem step (inv : Inv k tids tid w) (action : World.Action) :
    Inv k tids tid (w.step k tids tid action) := by
  unfold World.step
  split
  next => exact inv
  next here =>
    cases action with
    | main =>
        have alive : w.killed = false := by
          cases killed : w.killed with
          | false => rfl
          | true => exact absurd (by simp [gone, killed]) here
        exact inv.supervise alive
    | worker i => exact inv.worker i
    | acceptor => exact { inv with acceptor := inv.acceptor.thread }
    | signal => exact inv.signal

theorem run (k : Nat) (tids : Nat → BitVec 32) (tid : BitVec 32) (schedule : List World.Action) :
    Inv k tids tid (World.run k tids tid schedule) :=
  Machine.run_keeps (fun _ action before => before.step action) init schedule

end Inv

/-! ## What holds in every run -/

/-- Boot in one order and shutdown in the reverse one, with every check of the source passed. -/
structure Orderly (k : Nat) (w : World) : Prop where
  untrapped : w.main ≠ .trapped ∧ w.acceptor.thread ≠ .trapped ∧
    ∀ i < k, (w.workers i).thread ≠ .trapped
  wired : ∀ i < k, (w.workers i).thread ≠ .idle →
    (w.workers i).fromAcceptor = some i ∧ (w.workers i).toAcceptor = some i
  hub : w.acceptor.thread ≠ .idle → ∀ i < k,
    w.acceptor.toWorker i = some i ∧ w.acceptor.fromWorker i = some i ∧
      (w.workers i).ctl.state ≠ .starting
  reverse : ∀ i < k, (w.workers i).ctl.Past → w.acceptor.thread = .returned
  whole : w.main = .returned → w.tlsRole = .supervisor ∧
    w.acceptor.thread = .returned ∧ w.acceptor.joinable = false ∧
    ∀ i < k, (w.workers i).thread = .returned ∧ (w.workers i).joinable = false
  killed : w.killed = true → w.acceptor.thread = .idle ∧ ∀ i < k, (w.workers i).thread = .idle

theorem Main.reached {main : Main} {i : Nat} (begun : 2 ≤ main.acceptorLevel) : 3 ≤ main.level i := by
  cases main with
  | stop j call =>
      simp only [Main.level]
      split <;> decide
  | join j =>
      simp only [Main.level]
      split <;> decide
  | _ => simp_all [Main.level, Main.acceptorLevel]

theorem Main.after {main : Main} {i : Nat} (past : 4 ≤ main.level i) : 5 ≤ main.acceptorLevel := by
  cases main <;> simp only [Main.level, Main.acceptorLevel] at past ⊢
  all_goals first
    | exact Nat.le_refl _
    | (split at past <;> exact absurd past (by decide))
    | exact absurd past (by decide)

theorem Inv.orderly {k : Nat} {tids : Nat → BitVec 32} {tid : BitVec 32} {w : World}
    (inv : Inv k tids tid w) : Orderly k w where
  untrapped := by
    refine ⟨fun trapped => ?_, inv.acceptor.untrapped, fun i inside => (inv.workers i inside).untrapped⟩
    have fits := inv.fits
    rwa [trapped] at fits
  wired i inside begun :=
    inv.pipes i inside (Nat.le_trans (by decide) ((inv.workers i inside).begun.mp begun))
  hub begun i inside := by
    have level := inv.acceptor.begun.mp begun
    obtain ⟨out, back⟩ := inv.edges (Nat.le_trans (by decide) level) i inside
    exact ⟨out, back, (inv.workers i inside).seen (Main.reached level)⟩
  reverse i inside past := by
    apply inv.acceptor.joined
    apply Main.after
    by_contra short
    exact (inv.workers i inside).early (Nat.lt_of_not_le short) past
  whole back := by
    have acceptor := inv.acceptor
    rw [back] at acceptor
    refine ⟨inv.token (by simp [back]), acceptor.joined (by decide), acceptor.free (.inr (by decide)), fun i inside => ?_⟩
    have worker := inv.workers i inside
    rw [back] at worker
    exact ⟨worker.joined (Nat.le_refl 5), worker.free (.inr (Nat.le_refl 5))⟩
  killed killed := by
    have early := inv.masked.mp (inv.killed killed)
    refine ⟨inv.acceptor.idle ?_, fun i inside => (inv.workers i inside).idle ?_⟩
    · rcases early with here | here <;> simp [here, Main.acceptorLevel]
    · rcases early with here | here <;> simp [here, Main.level]

/-- `main` is past its `sigwait`. -/
def Main.Shuts : Main → Prop
  | .stopAcceptor _ | .joinAcceptor | .stop .. | .join _ | .destroy | .returned => True
  | _ => False

/-- No signal has come yet. -/
structure Undisturbed (w : World) : Prop where
  pending : w.pending = false
  killed : w.killed = false
  boots : ¬ w.main.Shuts

namespace Undisturbed

variable {k : Nat} {tids : Nat → BitVec 32} {tid : BitVec 32} {w : World}

theorem supervise (calm : Undisturbed w) : Undisturbed (w.supervise k) := by
  obtain ⟨pending, killed, boots⟩ := calm
  cases here : w.main with
  | stopAcceptor _ | joinAcceptor | stop _ _ | join _ | destroy | returned =>
      rw [here] at boots
      exact absurd trivial boots
  | token | mask | wire =>
      simp only [World.supervise, here]
      exact ⟨pending, killed, id⟩
  | emplace i | start i =>
      simp only [World.supervise, here]
      split
      · split <;> exact ⟨pending, killed, id⟩
      · exact ⟨pending, killed, id⟩
  | barrier i =>
      simp only [World.supervise, here]
      split
      · split
        · exact ⟨pending, killed, id⟩
        · exact ⟨pending, killed, boots⟩
      · exact ⟨pending, killed, id⟩
  | install i | startAcceptor =>
      simp only [World.supervise, here]
      split <;> exact ⟨pending, killed, id⟩
  | awaitAcceptor =>
      simp only [World.supervise, here]
      split
      · exact ⟨pending, killed, id⟩
      · exact ⟨pending, killed, boots⟩
  | sigwait =>
      simp only [World.supervise, here, pending, Bool.false_eq_true, if_false]
      exact ⟨pending, killed, boots⟩
  | trapped =>
      simp only [World.supervise, here]
      exact ⟨pending, killed, boots⟩

theorem step (calm : Undisturbed w) {action : World.Action} (silent : action ≠ .signal) :
    Undisturbed (w.step k tids tid action) := by
  unfold World.step
  split
  next => exact calm
  next =>
    cases action with
    | main => exact calm.supervise
    | worker i => exact ⟨calm.pending, calm.killed, calm.boots⟩
    | acceptor => exact ⟨calm.pending, calm.killed, calm.boots⟩
    | signal => exact absurd rfl silent

theorem run {schedule : List World.Action} (silent : World.Action.signal ∉ schedule) :
    Undisturbed (World.run k tids tid schedule) := by
  have quiet : ∀ action ∈ schedule, action ≠ World.Action.signal := by
    intro action member same
    exact silent (same ▸ member)
  exact Machine.run_keeps_of (fun _ _ quiet before => before.step quiet) ⟨rfl, rfl, id⟩ quiet

/-- Then nothing is stopped. -/
theorem goes_on (calm : Undisturbed w) (inv : Inv k tids tid w) :
    w.main ≠ .returned ∧ ¬ w.acceptor.ctl.Past ∧ ∀ i < k, ¬ (w.workers i).ctl.Past := by
  have boots := calm.boots
  have fits := inv.fits
  refine ⟨fun back => ?_, inv.acceptor.early ?_, fun i inside => (inv.workers i inside).early ?_⟩
  · rw [back] at boots
    exact boots trivial
  · cases here : w.main <;> simp [here, Main.Shuts, Main.Fits, Main.acceptorLevel] at boots fits ⊢
  · cases here : w.main <;> simp only [here, Main.Shuts, Main.Fits, Main.level, not_true] at boots fits ⊢
    all_goals first | decide | (split <;> decide)

end Undisturbed

/-- Boot and shutdown in every run, for any number of workers and under any interleaving. -/
theorem World.boot_and_shutdown_ordered (k : Nat) (tids : Nat → BitVec 32) (tid : BitVec 32)
    (schedule : List World.Action) :
    let w := World.run k tids tid schedule
    Orderly k w ∧
      (.signal ∉ schedule → w.main ≠ .returned ∧ w.killed = false ∧ ¬ w.acceptor.ctl.Past ∧
        ∀ i < k, ¬ (w.workers i).ctl.Past) := by
  intro w
  have inv := Inv.run k tids tid schedule
  refine ⟨inv.orderly, fun silent => ?_⟩
  have calm : Undisturbed w := Undisturbed.run silent
  obtain ⟨running, acceptor, workers⟩ := calm.goes_on inv
  exact ⟨running, calm.killed, acceptor, workers⟩

end NetEngine.Supervisor
