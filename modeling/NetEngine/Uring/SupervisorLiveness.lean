import Mathlib.Algebra.BigOperators.Group.Finset.Basic
import Mathlib.Algebra.Order.BigOperators.Group.Finset
import NetEngine.Uring.SupervisorProperties

/-! Boot and shutdown come to their end: of all that is left to do, no step of any thread makes
more, and there is always one that makes less. -/

set_option autoImplicit false

namespace NetEngine.Supervisor

open ThreadCtl

/-! ## What is left to do -/

namespace Control

/-- A thread that runs has as much to do after a beat as before it. -/
def rank (c : Control) : Nat :=
  match c.thread with
  | .idle => 9
  | .entered => 8
  | .published _ => 7
  | .attached => 6
  | .looping => if c.ctl.state = .running then 5 else 2
  | .beating => if c.ctl.state = .running then 5 else 3
  | .leaving | .refused _ => 1
  | .returned | .trapped => 0

section Thread

variable {guard : ThreadRole} {tid : BitVec 32} {level : Nat} {c : Control}

/-- A thread that is there, does not run and has not returned gets closer to its end. -/
theorem At.falls (here : c.At guard tid level) (begun : c.thread ≠ .idle)
    (rests : c.ctl.state ≠ .running) (going : c.thread ≠ .returned) :
    (c.turned guard tid).rank < c.rank := by
  have ok := here.ok
  unfold rank turned
  cases thread : c.thread with
  | idle => exact absurd thread begun
  | returned => exact absurd thread going
  | trapped => exact absurd thread here.untrapped
  | entered => simp [trampoline]
  | published role =>
      rw [thread] at ok
      simp [trampoline, ok.1]
  | attached =>
      by_cases starting : c.ctl.state = .starting
      · simp [trampoline, Ctl.compareExchange, Ctl.store, starting]
      · simp [trampoline, Ctl.compareExchange, starting]
  | looping => simp [trampoline, rests]
  | beating => simp [trampoline, rests]
  | leaving => simp [trampoline]
  | refused observed =>
      rw [thread] at ok
      simp [trampoline, ok.2.1]

/-- Otherwise nothing that another thread looks at changes. -/
theorem At.falls_or_rests (here : c.At guard tid level) :
    (c.turned guard tid).rank < c.rank ∨
      (c.turned guard tid).rank = c.rank ∧ (c.turned guard tid).ctl.state = c.ctl.state ∧
        ((c.turned guard tid).thread = .returned ↔ c.thread = .returned) := by
  by_cases idle : c.thread = .idle
  · exact .inr (by simp [rank, turned, idle, trampoline])
  by_cases returned : c.thread = .returned
  · exact .inr (by simp [rank, turned, returned, trampoline])
  by_cases running : c.ctl.state = .running
  · have ok := here.ok
    unfold rank turned
    cases thread : c.thread with
    | looping | beating => exact .inr (by simp [trampoline, running])
    | _ => simp_all [Thread.Ok]
  · exact .inl (here.falls idle running returned)

end Thread

theorem rank_asked (c : Control) (running : c.ctl.state = .running) :
    rank { c with ctl := c.ctl.store .stopper .draining } ≤ c.rank := by
  unfold rank
  cases c.thread <;> simp [Ctl.store, running]

end Control

def Stopper.rank : Stopper → Nat
  | .called => 3
  | .observed _ => 2
  | .returned => 1

def Main.rank (k : Nat) : Main → Nat
  | .token => 9 * k + 20
  | .mask => 9 * k + 19
  | .emplace i => 7 * k + 18 + 2 * (k - i)
  | .install i => 7 * k + 17 + 2 * (k - i)
  | .start i => 6 * k + 17 + (k - i)
  | .barrier i => 5 * k + 16 + (k - i)
  | .wire => 5 * k + 15
  | .startAcceptor => 5 * k + 14
  | .awaitAcceptor => 5 * k + 13
  | .sigwait => 5 * k + 12
  | .stopAcceptor call => 5 * k + 7 + Stopper.rank call
  | .joinAcceptor => 5 * k + 7
  | .stop i call => k + 3 + 4 * (k - i) + Stopper.rank call
  | .join i => 2 + (k - i)
  | .destroy => 1
  | .returned | .trapped => 0

namespace World

def rank (k : Nat) (w : World) : Nat :=
  w.main.rank k + w.acceptor.rank + (∑ i ∈ Finset.range k, (w.workers i).rank) +
    if w.pending then 0 else 1

/-- The one whose turn it is. -/
def helpful (w : World) : Action :=
  match w.main with
  | .barrier i => if i < w.size ∧ (w.workers i).ctl.state ≠ .running then .worker i else .main
  | .awaitAcceptor => if w.acceptor.ctl.state = .running then .main else .acceptor
  | .sigwait => if w.pending then .main else .signal
  | .joinAcceptor => if w.acceptor.thread = .returned then .main else .acceptor
  | .join i => if i < w.size ∧ (w.workers i).thread ≠ .returned then .worker i else .main
  | _ => .main

/-- Who must have a turn again and again. -/
def Agent (k : Nat) : Action → Prop
  | .worker i => i < k
  | _ => True

/-- `main` has returned, or the signal came too early. -/
def Ended (w : World) : Prop := w.main = .returned ∨ w.killed = true

variable {k : Nat} {w next : World}

theorem helpful_congr (main : next.main = w.main) (size : next.size = w.size)
    (pending : next.pending = w.pending)
    (workers : ∀ i < w.size, (next.workers i).ctl.state = (w.workers i).ctl.state ∧
      ((next.workers i).thread = .returned ↔ (w.workers i).thread = .returned))
    (state : next.acceptor.ctl.state = w.acceptor.ctl.state)
    (thread : next.acceptor.thread = .returned ↔ w.acceptor.thread = .returned) :
    next.helpful = w.helpful := by
  unfold helpful
  rw [main]
  cases w.main with
  | barrier i =>
      have same : i < next.size ∧ (next.workers i).ctl.state ≠ .running ↔
          i < w.size ∧ (w.workers i).ctl.state ≠ .running := by
        rw [size]
        exact and_congr_right fun inside => by rw [(workers i inside).1]
      simp only [same]
  | awaitAcceptor => simp only [state]
  | sigwait => simp only [pending]
  | joinAcceptor => simp only [thread]
  | join i =>
      have same : i < next.size ∧ (next.workers i).thread ≠ .returned ↔
          i < w.size ∧ (w.workers i).thread ≠ .returned := by
        rw [size]
        exact and_congr_right fun inside => not_congr (workers i inside).2
      simp only [same]
  | _ => rfl

theorem rank_lt (pending : next.pending = w.pending) (main : next.main.rank k < w.main.rank k)
    (acceptor : next.acceptor.rank ≤ w.acceptor.rank)
    (workers : ∀ i < k, (next.workers i).rank ≤ (w.workers i).rank) : next.rank k < w.rank k := by
  have sum : ∑ i ∈ Finset.range k, (next.workers i).rank ≤ ∑ i ∈ Finset.range k, (w.workers i).rank :=
    Finset.sum_le_sum fun i member => workers i (Finset.mem_range.mp member)
  unfold rank
  rw [pending]
  omega

theorem setWorker_rank {i : Nat} {c : WorkerCtl} (lower : c.rank ≤ (w.workers i).rank) (j : Nat) :
    ((w.setWorker i c).workers j).rank ≤ (w.workers j).rank := by
  by_cases here : j = i
  · subst here
    simpa [setWorker] using lower
  · simp [setWorker, Function.update_of_ne here]

theorem rank_setWorker {i : Nat} (inside : i < k) (c : WorkerCtl) :
    (w.setWorker i c).rank k + (w.workers i).rank = w.rank k + c.rank := by
  have member := Finset.mem_range.mpr inside
  have before := Finset.add_sum_erase (Finset.range k) (fun j => (w.workers j).rank) member
  have after := Finset.add_sum_erase (Finset.range k)
    (fun j => ((w.setWorker i c).workers j).rank) member
  have rest : ∑ j ∈ (Finset.range k).erase i, ((w.setWorker i c).workers j).rank =
      ∑ j ∈ (Finset.range k).erase i, (w.workers j).rank := by
    apply Finset.sum_congr rfl
    intro j other
    simp [setWorker, Function.update_of_ne (Finset.ne_of_mem_erase other)]
  have own : ((w.setWorker i c).workers i).rank = c.rank := by simp [setWorker]
  have sum : (∑ j ∈ Finset.range k, ((w.setWorker i c).workers j).rank) + (w.workers i).rank =
      (∑ j ∈ Finset.range k, (w.workers j).rank) + c.rank := by
    rw [← before, ← after, rest, own]
    omega
  calc (w.setWorker i c).rank k + (w.workers i).rank
      = w.main.rank k + w.acceptor.rank +
          ((∑ j ∈ Finset.range k, ((w.setWorker i c).workers j).rank) + (w.workers i).rank) +
            (if w.pending then 0 else 1) := Nat.add_right_comm .. |>.trans (by rw [← Nat.add_assoc]; rfl)
    _ = w.rank k + c.rank := by
        rw [sum, ← Nat.add_assoc, Nat.add_right_comm]
        rfl

end World

namespace Inv

variable {k : Nat} {tids : Nat → BitVec 32} {tid : BitVec 32} {w : World}

open Main World

/-- `main` gets closer to its end, or it waits, and then another one has its turn. -/
theorem supervise_falls (inv : Inv k tids tid w) (going : w.main ≠ .returned) :
    (w.supervise k).rank k < w.rank k ∨ w.supervise k = w ∧ w.helpful ≠ .main := by
  have fits := inv.fits
  have acceptor := inv.acceptor
  have same : w.acceptor.rank ≤ w.acceptor.rank := Nat.le_refl _
  have all : ∀ i < k, (w.workers i).rank ≤ (w.workers i).rank := fun i _ => Nat.le_refl _
  cases here : w.main with
  | returned => exact absurd here going
  | trapped =>
      rw [here] at fits
      exact fits.elim
  | token | mask | wire =>
      left
      simp only [World.supervise, here]
      refine rank_lt rfl ?_ same all
      simp only [here, Main.rank]
      omega
  | emplace i =>
      left
      obtain ⟨inside, size⟩ : i ≤ k ∧ w.size = i := by simpa [here, Fits] using fits
      by_cases more : i < k
      · have room : w.size < k := size ▸ more
        have idle := (inv.workers i more).idle (by simp [here, level])
        have lower : Control.rank {} ≤ (w.workers w.size).rank := by simp [Control.rank, size, idle]
        simp only [World.supervise, here, more, room, if_true]
        refine rank_lt rfl ?_ same fun j _ => setWorker_rank lower j
        simp only [here, Main.rank]
        omega
      · simp only [World.supervise, here, more, if_false]
        refine rank_lt rfl ?_ same all
        simp only [here, Main.rank]
        omega
  | install i =>
      left
      obtain ⟨inside, size⟩ : i < k ∧ w.size = i + 1 := by simpa [here, Fits] using fits
      have index : i < w.size := by omega
      simp only [World.supervise, here, index, if_true]
      refine rank_lt rfl ?_ same fun j _ => setWorker_rank ?_ j
      · simp only [here, Main.rank]
        omega
      · exact Nat.le_refl (w.workers i).rank
  | start i =>
      left
      obtain ⟨inside, size⟩ : i ≤ k ∧ w.size = k := by simpa [here, Fits] using fits
      by_cases more : i < k
      · have idle := (inv.workers i more).idle (by simp [here, level])
        have lower : ((w.workers i).start true).rank ≤ (w.workers i).rank := by
          simp [Control.rank, Control.start, idle]
        rw [inv.supervise_start here more]
        refine rank_lt rfl ?_ same fun j _ => setWorker_rank lower j
        simp only [here, Main.rank]
        omega
      · have index : ¬ i < w.size := size ▸ more
        simp only [World.supervise, here, index, if_false]
        refine rank_lt rfl ?_ same all
        simp only [here, Main.rank]
        omega
  | barrier i =>
      obtain ⟨inside, size⟩ : i ≤ k ∧ w.size = k := by simpa [here, Fits] using fits
      simp only [World.supervise, here]
      split
      next more =>
        split
        next running =>
          left
          refine rank_lt rfl ?_ same all
          simp only [here, Main.rank]
          omega
        next waits => exact .inr ⟨rfl, by simp [helpful, here, more, waits]⟩
      next =>
        left
        refine rank_lt rfl ?_ same all
        simp only [here, Main.rank]
        omega
  | startAcceptor =>
      left
      have idle := acceptor.idle (by simp [here, acceptorLevel])
      rw [inv.supervise_startAcceptor here]
      refine rank_lt rfl ?_ ?_ all
      · simp only [here, Main.rank]
        omega
      · simp [Control.rank, Control.start, idle]
  | awaitAcceptor =>
      simp only [World.supervise, here]
      split
      next running =>
        left
        refine rank_lt rfl ?_ same all
        simp only [here, Main.rank]
        omega
      next waits => exact .inr ⟨rfl, by simp [helpful, here, waits]⟩
  | sigwait =>
      simp only [World.supervise, here]
      split
      next pending =>
        left
        simp only [World.rank, here, Main.rank, Stopper.rank, pending, if_true, Bool.false_eq_true,
          if_false]
        omega
      next waits => exact .inr ⟨rfl, by simp [helpful, here, waits]⟩
  | stopAcceptor call =>
      left
      obtain ⟨size, fresh⟩ : w.size = k ∧ Fresh call := by simpa [here, Fits] using fits
      simp only [here, acceptorLevel] at acceptor
      simp only [World.supervise, here]
      by_cases back : call = .returned
      · rw [if_pos back]
        refine rank_lt rfl ?_ same all
        simp only [here, Main.rank, back, Stopper.rank]
        omega
      · rw [if_neg back] at acceptor ⊢
        have going : call = .called ∨ call = .observed .running :=
          fresh.imp_right fun rest => rest.resolve_right back
        rcases requestStop_running acceptor.state going with ⟨asks, began⟩ | ⟨asks, began⟩
        · rw [asks]
          exact rank_lt rfl (by simp [here, Main.rank, began, Stopper.rank]) same all
        · rw [asks]
          exact rank_lt rfl (by simp [here, Main.rank, began, Stopper.rank])
            (w.acceptor.rank_asked acceptor.state) all
  | joinAcceptor =>
      have before : w.acceptor.At .acceptor tid 4 := by simpa [here, acceptorLevel] using acceptor
      simp only [World.supervise, here, before.join_eq]
      by_cases returned : w.acceptor.thread = .returned
      · left
        rw [if_pos returned]
        refine rank_lt rfl ?_ same all
        simp only [here, Main.rank, Stopper.rank]
        omega
      · rw [if_neg returned]
        exact .inr ⟨rfl, by simp [helpful, here, returned]⟩
  | stop i call =>
      left
      obtain ⟨inside, size, fresh⟩ : i ≤ k ∧ w.size = k ∧ Fresh call := by
        simpa [here, Fits] using fits
      by_cases more : i < k
      · have index : i < w.size := size ▸ more
        have before := inv.workers i more
        simp only [World.supervise, here, index, if_true]
        by_cases back : call = .returned
        · rw [if_pos back]
          refine rank_lt rfl ?_ same all
          simp only [here, Main.rank, back, Stopper.rank]
          omega
        · simp only [here, level, Nat.lt_irrefl, false_or, true_and, back, if_false] at before ⊢
          have going : call = .called ∨ call = .observed .running :=
            fresh.imp_right fun rest => rest.resolve_right back
          rcases requestStop_running before.state going with ⟨asks, began⟩ | ⟨asks, began⟩
          · rw [asks]
            exact rank_lt rfl (by simp [here, Main.rank, began, Stopper.rank]) same
              fun j _ => setWorker_rank (Nat.le_refl _) j
          · rw [asks]
            exact rank_lt rfl (by simp [here, Main.rank, began, Stopper.rank]) same
              fun j _ => setWorker_rank ((w.workers i).rank_asked before.state) j
      · have index : ¬ i < w.size := size ▸ more
        simp only [World.supervise, here, index, if_false]
        refine rank_lt rfl ?_ same all
        simp only [here, Main.rank]
        omega
  | join i =>
      obtain ⟨inside, size⟩ : i ≤ k ∧ w.size = k := by simpa [here, Fits] using fits
      by_cases more : i < k
      · have index : i < w.size := size ▸ more
        have before := inv.workers i more
        simp only [here, level, Nat.lt_irrefl, if_false] at before
        simp only [World.supervise, here, index, if_true, before.join_eq]
        by_cases returned : (w.workers i).thread = .returned
        · left
          rw [if_pos returned]
          refine rank_lt rfl ?_ same fun j _ => setWorker_rank ?_ j
          · simp only [here, Main.rank]
            omega
          · exact Nat.le_refl (w.workers i).rank
        · rw [if_neg returned]
          exact .inr ⟨rfl, by simp [helpful, here, index, returned]⟩
      · left
        have index : ¬ i < w.size := size ▸ more
        simp only [World.supervise, here, index, if_false]
        refine rank_lt rfl ?_ same all
        simp only [here, Main.rank]
        omega
  | destroy =>
      left
      rw [inv.supervise_destroy here]
      refine rank_lt rfl ?_ same all
      simp only [here, Main.rank]
      omega

/-- A thread on which `main` waits has something to do. -/
theorem busy_early {guard : ThreadRole} {tid : BitVec 32} {c : Control} (here : c.At guard tid 2)
    (rests : c.ctl.state ≠ .running) :
    (c.turned guard tid).rank < c.rank := by
  apply here.falls (here.begun.mpr (by decide)) rests
  intro returned
  have ok := here.ok
  rw [returned] at ok
  exact here.early (by decide) (.inr ok.2)

theorem busy_late {guard : ThreadRole} {tid : BitVec 32} {c : Control} (here : c.At guard tid 4)
    (going : c.thread ≠ .returned) :
    (c.turned guard tid).rank < c.rank := by
  apply here.falls (here.begun.mpr (by decide)) _ going
  intro running
  rcases here.past (by decide) with wrong | wrong <;> rw [running] at wrong <;> cases wrong

theorem busy_worker (inv : Inv k tids tid w) {i : Nat} (turn : w.helpful = .worker i) :
    i < k ∧ ((w.workers i).turned .worker (tids i)).rank < (w.workers i).rank := by
  have fits := inv.fits
  cases here : w.main with
  | barrier j =>
      obtain ⟨_, size⟩ : j ≤ k ∧ w.size = k := by simpa [here, Fits] using fits
      simp only [helpful, here] at turn
      split at turn
      next waits =>
        cases turn
        have more : i < k := size ▸ waits.1
        have before := inv.workers i more
        simp only [here, level, Nat.lt_irrefl, if_false] at before
        exact ⟨more, busy_early before waits.2⟩
      next => cases turn
  | join j =>
      obtain ⟨_, size⟩ : j ≤ k ∧ w.size = k := by simpa [here, Fits] using fits
      simp only [helpful, here] at turn
      split at turn
      next waits =>
        cases turn
        have more : i < k := size ▸ waits.1
        have before := inv.workers i more
        simp only [here, level, Nat.lt_irrefl, if_false] at before
        exact ⟨more, busy_late before waits.2⟩
      next => cases turn
  | awaitAcceptor | sigwait | joinAcceptor =>
      simp only [helpful, here] at turn
      split at turn <;> cases turn
  | _ =>
      simp only [helpful, here] at turn
      cases turn

theorem busy_acceptor (inv : Inv k tids tid w) (turn : w.helpful = .acceptor) :
    (w.acceptor.turned .acceptor tid).rank < w.acceptor.rank := by
  have before := inv.acceptor
  cases here : w.main with
  | awaitAcceptor =>
      simp only [helpful, here] at turn
      simp only [here, acceptorLevel] at before
      split at turn
      next => cases turn
      next waits => exact busy_early before waits
  | joinAcceptor =>
      simp only [helpful, here] at turn
      simp only [here, acceptorLevel] at before
      split at turn
      next => cases turn
      next waits => exact busy_late before waits
  | sigwait | barrier _ | join _ =>
      simp only [helpful, here] at turn
      split at turn <;> cases turn
  | _ =>
      simp only [helpful, here] at turn
      cases turn

theorem busy_signal (turn : w.helpful = .signal) : w.main = .sigwait ∧ w.pending = false := by
  cases here : w.main with
  | sigwait =>
      simp only [helpful, here] at turn
      split at turn
      next => cases turn
      next waits => exact ⟨rfl, by simpa using waits⟩
  | awaitAcceptor | joinAcceptor | barrier _ | join _ =>
      simp only [helpful, here] at turn
      split at turn <;> cases turn
  | _ =>
      simp only [helpful, here] at turn
      cases turn

/-- A step of any thread, or a signal: either less is left to do, or it was not the turn of
that thread, and it still is the turn of the other one. -/
theorem step_falls (inv : Inv k tids tid w) (going : ¬ w.Ended) (action : World.Action) :
    (w.step k tids tid action).rank k < w.rank k ∨
      (w.step k tids tid action).rank k = w.rank k ∧
        (w.step k tids tid action).helpful = w.helpful ∧ action ≠ w.helpful := by
  obtain ⟨running, alive⟩ : w.main ≠ .returned ∧ w.killed = false := by simpa [Ended] using going
  have untrapped : w.main ≠ .trapped := by
    intro trapped
    have fits := inv.fits
    rwa [trapped] at fits
  have here : w.gone = false := by simp [gone, running, alive, untrapped]
  simp only [World.step, here, Bool.false_eq_true, if_false]
  cases action with
  | main =>
      rcases inv.supervise_falls running with lower | ⟨same, turn⟩
      · exact .inl lower
      · exact .inr ⟨by rw [same], by rw [same], turn.symm⟩
  | worker i =>
      by_cases inside : i < k
      · have sum := rank_setWorker (w := w) inside
          { w.workers i with toControl := (w.workers i).turned .worker (tids i) }
        rcases (inv.workers i inside).falls_or_rests with lower | ⟨rests, state, thread⟩
        · left
          exact Nat.lt_of_add_lt_add_right (sum ▸ Nat.add_lt_add_left lower (w.rank k))
        · right
          refine ⟨Nat.add_right_cancel (sum.trans (congrArg _ rests)), ?_, fun turn => ?_⟩
          · refine helpful_congr rfl rfl rfl (fun j _ => ?_) rfl Iff.rfl
            by_cases own : j = i
            · subst own
              simp only [setWorker, Function.update_self]
              exact ⟨state, thread⟩
            · simp [setWorker, Function.update_of_ne own]
          · have busy := (inv.busy_worker turn.symm).2
            rw [rests] at busy
            exact absurd busy (Nat.lt_irrefl _)
      · right
        have apart : ∀ j < k, j ≠ i := fun j more same => inside (same ▸ more)
        refine ⟨?_, ?_, fun turn => inside (inv.busy_worker turn.symm).1⟩
        · simp only [World.rank, setWorker]
          congr 2
          apply Finset.sum_congr rfl
          intro j member
          rw [Function.update_of_ne (apart j (Finset.mem_range.mp member))]
        · refine helpful_congr rfl rfl rfl (fun j more => ?_) rfl Iff.rfl
          simp [setWorker, Function.update_of_ne (apart j (Nat.lt_of_lt_of_le more inv.size_le))]
  | acceptor =>
      rcases inv.acceptor.falls_or_rests with lower | ⟨rests, state, thread⟩
      · left
        exact Nat.add_lt_add_right (Nat.add_lt_add_right (Nat.add_lt_add_left lower _) _) _
      · right
        have same : w.main.rank k + (w.acceptor.turned .acceptor tid).rank =
            w.main.rank k + w.acceptor.rank := congrArg _ rests
        refine ⟨congrArg (fun rest => rest + _ + _) same,
          helpful_congr rfl rfl rfl (fun _ _ => ⟨rfl, Iff.rfl⟩) state thread, fun turn => ?_⟩
        have busy := inv.busy_acceptor turn.symm
        rw [rests] at busy
        exact absurd busy (Nat.lt_irrefl _)
  | signal =>
      by_cases exposed : w.exposed = true
      · right
        simp only [World.signal, exposed, if_true]
        refine ⟨rfl, rfl, fun turn => ?_⟩
        have masked : w.masked = true := by simpa [(busy_signal turn.symm).1] using inv.masked
        exact absurd exposed (by simp [inv.unexposed masked])
      · simp only [World.signal, exposed, Bool.false_eq_true, if_false]
        by_cases pending : w.pending = true
        · right
          have same : { w with pending := true } = w := by rw [← pending]
          refine ⟨by rw [same], by rw [same], fun turn => ?_⟩
          exact absurd pending (by simp [(busy_signal turn.symm).2])
        · left
          simp [World.rank, pending]

theorem progress (k : Nat) (tids : Nat → BitVec 32) (tid : BitVec 32) :
    Machine.Progress (World.step k tids tid) (Inv k tids tid) World.Ended (World.rank k)
      World.helpful (World.Agent k) where
  keeps _ action inv := inv.step action
  rests w action ended := by
    have gone : w.gone = true := by
      rcases ended with returned | killed
      · simp [gone, returned]
      · simp [gone, killed]
    simpa [World.step, gone] using ended
  falls w action inv going := by
    rcases inv.step_falls going action with lower | ⟨same, _⟩
    · exact Nat.le_of_lt lower
    · exact Nat.le_of_eq same
  agent w inv _ := by
    cases turn : w.helpful with
    | worker i => exact (inv.busy_worker turn).1
    | _ => trivial
  helps w inv going := by
    rcases inv.step_falls going w.helpful with lower | ⟨_, _, apart⟩
    · exact lower
    · exact absurd rfl apart
  waits w action inv going same := by
    rcases inv.step_falls going action with lower | ⟨_, turn, _⟩
    · exact absurd same (Nat.ne_of_lt lower)
    · exact turn

end Inv

/-- A schedule in rounds, in each of which each worker, the acceptor and `main` have a turn and
a signal comes, ends the process: `main` returns after every thread, or the first signal came
before `main` had the signals blocked, when no thread was there yet. -/
theorem World.shutdown_completes (k : Nat) (tids : Nat → BitVec 32) (tid : BitVec 32)
    (rounds : List (List World.Action))
    (fair : ∀ round ∈ rounds, ∀ action, World.Agent k action → action ∈ round)
    (enough : 18 * k + 30 < rounds.length) :
    let w := World.run k tids tid rounds.flatten
    (w.main = .returned ∧ w.acceptor.thread = .returned ∧ ∀ i < k, (w.workers i).thread = .returned) ∨
      w.killed = true ∧ w.acceptor.thread = .idle ∧ ∀ i < k, (w.workers i).thread = .idle := by
  intro w
  have orderly := (World.boot_and_shutdown_ordered k tids tid rounds.flatten).1
  have start : World.rank k {} < rounds.length := by
    have all : World.rank k {} = 18 * k + 30 := by
      simp [World.rank, Main.rank, Control.rank]
      omega
    rwa [all]
  rcases (Inv.progress k tids tid).rounds Inv.init rounds fair start with returned | killed
  · obtain ⟨_, acceptor, _, workers⟩ := orderly.whole returned
    exact .inl ⟨returned, acceptor, fun i inside => (workers i inside).1⟩
  · exact .inr ⟨killed, orderly.killed killed⟩

/-- The first signal comes when `main` has blocked it, and every round brings another one. -/
def twoRounds : List (List World.Action) :=
  List.replicate 67 [.main, .main, .worker 0, .worker 1, .acceptor, .signal]

/-- Two workers are started, and `main` returns after them. -/
theorem World.shutdown_completes_two :
    let w := World.run 2 (fun _ => 41) 40 twoRounds.flatten
    w.main = .returned ∧ w.acceptor.thread = .returned ∧ ∀ i < 2, (w.workers i).thread = .returned := by
  have alive : (World.run 2 (fun _ => 41) 40 twoRounds.flatten).killed = false := by decide +kernel
  refine (World.shutdown_completes 2 _ _ twoRounds (fun round member action agent => ?_)
    (by decide)).resolve_right fun ended => absurd (alive.symm.trans ended.1) (by decide)
  rw [List.eq_of_mem_replicate member]
  cases action with
  | worker i =>
      have inside : i < 2 := agent
      have either : i = 0 ∨ i = 1 := by omega
      rcases either with rfl | rfl <;> decide
  | _ => decide

end NetEngine.Supervisor
