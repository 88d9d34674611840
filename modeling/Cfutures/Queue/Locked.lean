/-
# Queue.Locked -- producers and consumers on one queue, lock by lock

`Queue.WorkQueue` takes a critical section in one step.  Here the mutex is taken
and given up in steps of their own (`Queue.Lock`), by any consumers `C` and
producers `P`, who may be asked to terminate at any time (`request`) and do so in
the wait of `queue_pop`, the only cancellation point of the two operations, or
outside of them (`exit`).

The work queue moves inside the sections: `link` is the body of `queue_enqueue` with
the address `malloc` returned for it, `test` is the loop test of `queue_pop` with
what follows it inside the section.  Every run, seen through its work queue or
through its lock, is a run of those machines (`run_workQueue`, `run_lock`).
-/
import Cfutures.Queue.Lock
import Cfutures.Queue.Sound

namespace Cfutures

open Cfutures.Theory

set_option autoImplicit false

universe u v w

structure LockedQueue (C : Type u) (P : Type v) (α : Type w) where
  workQueue : WorkQueue C α
  lock : QueueLock (C ⊕ P) α
  requested : C ⊕ P → Bool

inductive LockedAction (C : Type u) (P : Type v) (α : Type w) where
  | callEnqueue (t : C ⊕ P) (value : α)
  | callPop (c : C)
  | lock (t : C ⊕ P)
  | link (t : C ⊕ P) (item : Addr) (wake : Option C)
  | test (c : C)
  | relinquish (t : C ⊕ P)
  | return (c : C)
  | spurious (c : C)
  | request (t : C ⊕ P)
  | cancel (c : C) (heir : Option C)
  | exit (t : C ⊕ P)

namespace LockedQueue

variable {C : Type u} {P : Type v} {α : Type w} [Fintype C] [DecidableEq C] [DecidableEq P]

def start : LockedQueue C P α where
  workQueue := WorkQueue.start
  lock := (queueLocking α).startLocks (C ⊕ P)
  requested := fun _ => false

/-- The thread is asleep in `pthread_cond_wait`. -/
def asleep (s : LockedQueue C P α) : C ⊕ P → Bool
  | .inl c => decide (s.workQueue.phase c = .asleep)
  | .inr _ => false

/-- A move of `t` that the list has no part in. -/
def moveStep (s : LockedQueue C P α) (t : C ⊕ P) (move : QueueMove α) :
    Option (LockedQueue C P α) :=
  ((queueLocking α).step s.lock (t, move)).map fun lock => { s with lock := lock }

/-- The critical section of `queue_enqueue`. -/
def linkStep (s : LockedQueue C P α) (t : C ⊕ P) (item : Addr) (wake : Option C) :
    Option (LockedQueue C P α) :=
  match s.lock.place t with
  | .enqueueLocked value => (s.workQueue.enqueueStep item value wake).bind fun workQueue =>
      { s with workQueue := workQueue }.moveStep t .link
  | _ => none

/-- What the loop test of `queue_pop` finds. -/
def popMove (s : WorkQueue C α) : QueueMove α := if s.queue.head.isNone then .sleep else .take

def testStep (s : LockedQueue C P α) (c : C) : Option (LockedQueue C P α) :=
  (s.workQueue.popStep c).bind fun workQueue =>
    { s with workQueue := workQueue }.moveStep (.inl c) (popMove s.workQueue)

def returnStep (s : LockedQueue C P α) (c : C) : Option (LockedQueue C P α) :=
  (s.workQueue.returnStep c).bind fun returned =>
    { s with workQueue := returned.2 }.moveStep (.inl c) .return

def cancelStep (s : LockedQueue C P α) (c : C) (heir : Option C) : Option (LockedQueue C P α) :=
  if s.requested (.inl c) then
    (s.workQueue.cancelStep c heir).bind fun workQueue =>
      { s with workQueue := workQueue }.moveStep (.inl c) .cancel
  else none

def step (s : LockedQueue C P α) : LockedAction C P α → Option (LockedQueue C P α)
  | .callEnqueue t value => s.moveStep t (.callEnqueue value)
  | .callPop c => s.moveStep (.inl c) .callPop
  | .lock t => if s.asleep t then none else s.moveStep t .lock
  | .link t item wake => s.linkStep t item wake
  | .test c => s.testStep c
  | .relinquish t => s.moveStep t .relinquish
  | .return c => s.returnStep c
  | .spurious c => (s.workQueue.spuriousStep c).map fun workQueue =>
      { s with workQueue := workQueue }
  | .request t => some { s with requested := Function.update s.requested t true }
  | .cancel c heir => s.cancelStep c heir
  | .exit t => s.moveStep t .exit

def machine (C : Type u) (P : Type v) (α : Type w) [Fintype C] [DecidableEq C] [DecidableEq P] :
    Machine (LockedQueue C P α) (LockedAction C P α) where
  start := start
  step := step

/-- The thread that takes the step; a request comes from outside. -/
def thread : LockedAction C P α → Option (C ⊕ P)
  | .callEnqueue t _ | .lock t | .link t _ _ | .relinquish t | .exit t => some t
  | .callPop c | .test c | .return c | .spurious c | .cancel c _ => some (.inl c)
  | .request _ => none

/-! ## The two machines inside -/

/-- What an action is to the lock. -/
def lockAction (s : LockedQueue C P α) : LockedAction C P α → Option ((C ⊕ P) × QueueMove α)
  | .callEnqueue t value => some (t, .callEnqueue value)
  | .callPop c => some (.inl c, .callPop)
  | .lock t => some (t, .lock)
  | .link t _ _ => some (t, .link)
  | .test c => some (.inl c, popMove s.workQueue)
  | .relinquish t => some (t, .relinquish)
  | .return c => some (.inl c, .return)
  | .spurious _ | .request _ => none
  | .cancel c _ => some (.inl c, .cancel)
  | .exit t => some (t, .exit)

/-- What an action is to the work queue. -/
def queueAction (s : LockedQueue C P α) : LockedAction C P α → Option (QueueAction C α)
  | .link t item wake =>
      match s.lock.place t with
      | .enqueueLocked value => some (.enqueue item value wake)
      | _ => none
  | .test c => some (.pop c)
  | .return c => some (.return c)
  | .spurious c => some (.spurious c)
  | .cancel c heir => some (.cancel c heir)
  | _ => none

set_option linter.unusedSectionVars false

variable {s s' : LockedQueue C P α} {t : C ⊕ P} {c : C} {move : QueueMove α} {item : Addr}
  {wake heir : Option C} {past : List (LockedQueue C P α × LockedAction C P α)}

theorem moveStep_cases (stepped : s.moveStep t move = some s') :
    ∃ lock, (queueLocking α).step s.lock (t, move) = some lock ∧ s' = { s with lock := lock } := by
  obtain ⟨lock, moved, rfl⟩ := Option.map_eq_some_iff.1 stepped
  exact ⟨lock, moved, rfl⟩

theorem linkStep_cases (stepped : s.linkStep t item wake = some s') :
    ∃ value workQueue lock, s.lock.place t = .enqueueLocked value ∧
      s.workQueue.enqueueStep item value wake = some workQueue ∧
      (queueLocking α).step s.lock (t, .link) = some lock ∧
      s' = { s with workQueue := workQueue, lock := lock } := by
  unfold linkStep at stepped
  split at stepped
  · rename_i value place
    obtain ⟨workQueue, linked, stepped⟩ := Option.bind_eq_some_iff.1 stepped
    obtain ⟨lock, moved, rfl⟩ := moveStep_cases stepped
    exact ⟨value, workQueue, lock, place, linked, moved, rfl⟩
  · cases stepped

theorem testStep_cases (stepped : s.testStep c = some s') :
    ∃ workQueue lock, s.workQueue.popStep c = some workQueue ∧
      (queueLocking α).step s.lock (.inl c, popMove s.workQueue) = some lock ∧
      s' = { s with workQueue := workQueue, lock := lock } := by
  obtain ⟨workQueue, tested, stepped⟩ := Option.bind_eq_some_iff.1 stepped
  obtain ⟨lock, moved, rfl⟩ := moveStep_cases stepped
  exact ⟨workQueue, lock, tested, moved, rfl⟩

theorem returnStep_cases (stepped : s.returnStep c = some s') :
    ∃ returned lock, s.workQueue.returnStep c = some returned ∧
      (queueLocking α).step s.lock (.inl c, .return) = some lock ∧
      s' = { s with workQueue := returned.2, lock := lock } := by
  obtain ⟨returned, read, stepped⟩ := Option.bind_eq_some_iff.1 stepped
  obtain ⟨lock, moved, rfl⟩ := moveStep_cases stepped
  exact ⟨returned, lock, read, moved, rfl⟩

theorem cancelStep_cases (stepped : s.cancelStep c heir = some s') :
    s.requested (.inl c) = true ∧ ∃ workQueue lock, s.workQueue.cancelStep c heir = some workQueue ∧
      (queueLocking α).step s.lock (.inl c, .cancel) = some lock ∧
      s' = { s with workQueue := workQueue, lock := lock } := by
  simp only [cancelStep, Option.ite_none_right_eq_some] at stepped
  obtain ⟨requested, stepped⟩ := stepped
  obtain ⟨workQueue, cancelled, stepped⟩ := Option.bind_eq_some_iff.1 stepped
  obtain ⟨lock, moved, rfl⟩ := moveStep_cases stepped
  exact ⟨requested, workQueue, lock, cancelled, moved, rfl⟩

theorem projects_lock : Machine.Projects (machine C P α)
    ((queueLocking α).machine (C ⊕ P)) LockedQueue.lock lockAction := by
  intro s a s' stepped
  cases a with
  | callEnqueue | callPop | relinquish | exit =>
      obtain ⟨lock, moved, rfl⟩ := moveStep_cases stepped
      exact moved
  | lock t =>
      obtain ⟨lock, moved, rfl⟩ := moveStep_cases (Option.ite_none_left_eq_some.1 stepped).2
      exact moved
  | link =>
      obtain ⟨_, _, _, -, -, moved, rfl⟩ := linkStep_cases stepped
      exact moved
  | test =>
      obtain ⟨_, _, -, moved, rfl⟩ := testStep_cases stepped
      exact moved
  | «return» =>
      obtain ⟨_, _, -, moved, rfl⟩ := returnStep_cases stepped
      exact moved
  | spurious =>
      obtain ⟨_, -, rfl⟩ := Option.map_eq_some_iff.1 stepped
      rfl
  | request =>
      cases stepped
      rfl
  | cancel =>
      obtain ⟨-, _, _, -, moved, rfl⟩ := cancelStep_cases stepped
      exact moved

theorem projects_workQueue : Machine.Projects (machine C P α) (WorkQueue.machine C α)
    LockedQueue.workQueue queueAction := by
  intro s a s' stepped
  cases a with
  | callEnqueue | callPop | relinquish | exit =>
      obtain ⟨lock, -, rfl⟩ := moveStep_cases stepped
      rfl
  | lock t =>
      obtain ⟨lock, -, rfl⟩ := moveStep_cases (Option.ite_none_left_eq_some.1 stepped).2
      rfl
  | link =>
      obtain ⟨_, _, _, place, linked, -, rfl⟩ := linkStep_cases stepped
      simp only [queueAction, place]
      exact linked
  | test =>
      obtain ⟨_, _, tested, -, rfl⟩ := testStep_cases stepped
      exact tested
  | «return» =>
      obtain ⟨_, _, read, -, rfl⟩ := returnStep_cases stepped
      exact Option.map_eq_some_iff.2 ⟨_, read, rfl⟩
  | spurious =>
      obtain ⟨_, woken, rfl⟩ := Option.map_eq_some_iff.1 stepped
      exact woken
  | request =>
      cases stepped
      rfl
  | cancel =>
      obtain ⟨-, _, _, cancelled, -, rfl⟩ := cancelStep_cases stepped
      exact cancelled

theorem run_lock (run : (machine C P α).Run past s) :
    ((queueLocking α).machine (C ⊕ P)).Run
      (Machine.projectPast LockedQueue.lock lockAction past) s.lock :=
  Machine.Run.project (π := LockedQueue.lock) (f := lockAction) rfl projects_lock run

theorem run_workQueue (run : (machine C P α).Run past s) :
    (WorkQueue.machine C α).Run (Machine.projectPast LockedQueue.workQueue queueAction past)
      s.workQueue :=
  Machine.Run.project (π := LockedQueue.workQueue) (f := queueAction) rfl projects_workQueue run

theorem owner_iff (run : (machine C P α).Run past s) (t : C ⊕ P) :
    s.lock.owner () = some t ↔ (s.lock.place t).inSection = true :=
  run_queueLock (run_lock run) t

/-- Only the thread that takes a step changes place. -/
theorem step_place {a : LockedAction C P α} (stepped : s.step a = some s')
    (other : thread a ≠ some t) : s'.lock.place t = s.lock.place t := by
  have moves := projects_lock s a s' stepped
  cases a <;> first
    | exact congrFun (congrArg Locks.place moves) t
    | exact LockProtocol.step_other moves fun same => other (congrArg some same.symm)

/-! ## Places and phases -/

/-- What a consumer's place says of its phase. -/
def InPhase : QueuePlace α → Phase → Prop
  | .popLocked, phase => phase.testing = true
  | .popWait, phase => phase = .asleep ∨ ∃ signalled, phase = .woken signalled
  | .popRelinquish, phase | .popReturn, phase => ∃ item, phase = .holding item
  | .cancelLock, phase | .cancelRelinquish, phase | .cancelled, phase => phase = .cancelled
  | _, phase => phase = .outside

theorem InPhase.of_woken {p : QueuePlace α} {phase phase' : Phase} (fits : InPhase p phase)
    (woken : phase' = phase ∨ (phase = .asleep ∧ phase' = .woken true)) : InPhase p phase' := by
  rcases woken with rfl | ⟨rfl, rfl⟩
  · exact fits
  · cases p <;> simp [InPhase, Phase.testing] at fits ⊢

/-- The moves in which the work queue does not change the thread's phase. -/
def leavesPhase : QueueMove α → Bool
  | .sleep | .take | .return | .cancel => false
  | _ => true

theorem InPhase.unmoved {p q : QueuePlace α} {phase : Phase} (fits : InPhase p phase)
    (moved : p.next move = some q) (leaves : leavesPhase move = true)
    (awake : move.op = .lock () → phase ≠ .asleep) : InPhase q phase := by
  cases p <;> cases move <;> cases moved <;> cases leaves
  case popWait.lock =>
    rcases fits with rfl | ⟨signalled, rfl⟩
    · exact absurd rfl (awake rfl)
    · rfl
  all_goals simp_all [InPhase, Phase.testing]

/-- Every consumer's phase is the one its place says. -/
def Phased (s : LockedQueue C P α) : Prop :=
  ∀ c, InPhase (s.lock.place (.inl c)) (s.workQueue.phase c)

theorem start_phased : (start : LockedQueue C P α).Phased := fun _ => rfl

theorem Phased.moveStep (phased : s.Phased) {lock : QueueLock (C ⊕ P) α}
    (moved : (queueLocking α).step s.lock (t, move) = some lock) (leaves : leavesPhase move = true)
    (awake : move.op = .lock () → s.asleep t = false) :
    Phased { s with lock := lock } := by
  intro c
  by_cases same : .inl c = t
  · subst same
    refine (phased c).unmoved (LockProtocol.step_self moved) leaves ?_
    intro op
    simpa [asleep] using awake op
  · rw [LockProtocol.step_other moved same]
    exact phased c

/-- Consumer `c` has moved, and of the others only sleepers were woken. -/
theorem Phased.of_others (phased : s.Phased) {lock : QueueLock (C ⊕ P) α}
    {workQueue : WorkQueue C α} (moved : (queueLocking α).step s.lock (.inl c, move) = some lock)
    (here : InPhase (lock.place (.inl c)) (workQueue.phase c))
    (others : ∀ d, d ≠ c → workQueue.phase d = s.workQueue.phase d ∨
      (s.workQueue.phase d = .asleep ∧ workQueue.phase d = .woken true)) :
    Phased { s with workQueue := workQueue, lock := lock } := by
  intro d
  by_cases same : d = c
  · subst same
    exact here
  · rw [LockProtocol.step_other moved fun equal => same (Sum.inl.inj equal)]
    exact (phased d).of_woken (others d same)

theorem Phased.testStep (phased : s.Phased) (stepped : s.testStep c = some s') : s'.Phased := by
  obtain ⟨workQueue, lock, tested, moved, rfl⟩ := testStep_cases stepped
  have place := LockProtocol.step_self moved
  obtain ⟨-, ⟨empty, rfl⟩ | ⟨item, queue, record, unlinked, -, rfl⟩⟩ :=
    WorkQueue.popStep_cases tested
  · refine phased.of_others moved ?_ fun d ne => Or.inl (by simp [ne])
    cases at_ : s.lock.place (.inl c) <;> simp [at_, popMove, empty, QueuePlace.next] at place
    simp [← place, InPhase]
  · have busy : s.workQueue.queue.head ≠ none := by
      intro empty
      simp [queuePopSection, empty] at unlinked
    refine phased.of_others moved ?_ fun d ne => Or.inl (by simp [ne])
    cases at_ : s.lock.place (.inl c) <;> simp [at_, popMove, busy, QueuePlace.next] at place
    simp [← place, InPhase]

theorem Phased.returnStep (phased : s.Phased) (stepped : s.returnStep c = some s') :
    s'.Phased := by
  obtain ⟨returned, lock, read, moved, rfl⟩ := returnStep_cases stepped
  have place := LockProtocol.step_self moved
  obtain ⟨item, record, -, -, rfl⟩ := WorkQueue.returnStep_cases read
  refine phased.of_others moved ?_ fun d ne => Or.inl (by simp [ne])
  cases at_ : s.lock.place (.inl c) <;> simp [at_, QueuePlace.next] at place
  simp [← place, InPhase]

theorem Phased.cancelStep (phased : s.Phased) (stepped : s.cancelStep c heir = some s') :
    s'.Phased := by
  obtain ⟨-, workQueue, lock, cancelled, moved, rfl⟩ := cancelStep_cases stepped
  have place := LockProtocol.step_self moved
  obtain ⟨-, -, gone, -, others⟩ := WorkQueue.cancelStep_phase cancelled
  refine phased.of_others moved ?_ others
  cases at_ : s.lock.place (.inl c) <;> simp [at_, QueuePlace.next] at place
  simpa [← place, InPhase] using gone

theorem Phased.spuriousStep (phased : s.Phased) {workQueue : WorkQueue C α}
    (woken : s.workQueue.spuriousStep c = some workQueue) :
    Phased { s with workQueue := workQueue } := by
  obtain ⟨sleeping, rfl⟩ := WorkQueue.spuriousStep_cases woken
  intro d
  by_cases same : d = c
  · subst same
    have here := phased d
    rw [sleeping] at here
    cases at_ : s.lock.place (.inl d) <;> simp [at_, InPhase, Phase.testing] at here ⊢
  · simpa [same] using phased d

theorem Phased.linkStep (phased : s.Phased) (stepped : s.linkStep t item wake = some s') :
    s'.Phased := by
  obtain ⟨value, workQueue, lock, -, linked, moved, rfl⟩ := linkStep_cases stepped
  obtain ⟨-, queue, phase, -, signalled, rfl⟩ := WorkQueue.enqueueStep_cases linked
  have unmoved := phased.moveStep moved rfl nofun
  intro c
  exact (unmoved c).of_woken (condSignal_apply signalled c)

theorem Phased.step (phased : s.Phased) {a : LockedAction C P α} (stepped : s.step a = some s') :
    s'.Phased := by
  cases a with
  | callEnqueue | callPop | relinquish | exit =>
      obtain ⟨lock, moved, rfl⟩ := moveStep_cases stepped
      exact phased.moveStep moved rfl nofun
  | lock t =>
      obtain ⟨awake, stepped⟩ := Option.ite_none_left_eq_some.1 stepped
      obtain ⟨lock, moved, rfl⟩ := moveStep_cases stepped
      exact phased.moveStep moved rfl fun _ => by simpa using awake
  | link => exact phased.linkStep stepped
  | test => exact phased.testStep stepped
  | «return» => exact phased.returnStep stepped
  | spurious =>
      obtain ⟨workQueue, woken, rfl⟩ := Option.map_eq_some_iff.1 stepped
      exact phased.spuriousStep woken
  | request =>
      cases stepped
      exact phased
  | cancel => exact phased.cancelStep stepped

theorem run_phased (run : (machine C P α).Run past s) : s.Phased :=
  Machine.Run.invariant (I := Phased) start_phased (fun _ _ _ phased stepped => phased.step stepped)
    run

end LockedQueue

end Cfutures
