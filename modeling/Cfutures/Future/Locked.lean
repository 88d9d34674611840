/-
# Future.Locked -- threads on any number of futures, lock by lock

`Future.Shared` takes a critical section in one step, on one future.  Here any number
of threads work on any number of futures, and take and give up the mutexes in steps of
their own (`Future.Lock`).  A move of a thread is an action on the future it is
working on, or none (`effect`), and has to wait for its condition (`enabled`): the
loop of `future_wait` goes by `is_resolved`, a sleeper must be woken before it takes
the mutex again, and a cancellation is acted on only when it was requested.

Requests come at any time and to any thread: `future_pool_destroy` sends one to each
worker.  A walk over callbacks needs no mutex, and a thread in one is outside: what a
callback does to futures are moves like any others.

Seen through one future a run is a run of the `SharedFuture` machine (`run_future`).
-/
import Cfutures.Future.Lock

namespace Cfutures

open Cfutures.Theory

set_option autoImplicit false

universe u

structure LockedFutures (φ : Type u) where
  futures : Addr → SharedFuture φ
  lock : FutureLocks φ
  requested : Nat → Bool
  aborted : Bool

inductive LockedFutureAction (φ : Type u) where
  | move (t : Nat) (move : FutureMove φ)
  | walk (f : Addr) (call : Nat) (step : WalkStep)
  | request (t : Nat)

/-- What thread `t` does to its future by a move. -/
def FuturePlace.effect {φ : Type u} (t : Nat) :
    FuturePlace φ → FutureMove φ → Option (Addr × FutureAction φ)
  | _, .callWait f get => some (f, .wait t get)
  | .waitLocked f _, .sleep | .waitLocked f _, .pass => some (f, .check t)
  | .waitSleep f _, .wake => some (f, .spurious t)
  | .getting f, .get => some (f, .get t)
  | .settleLocked f o, .settle => some (f, .settle o)
  | .addLocked f callbackFn args, .add link => some (f, .addCallback link callbackFn args)
  | _, _ => none

namespace LockedFutures

variable {φ : Type u}

def start : LockedFutures φ where
  futures := fun _ => SharedFuture.start
  lock := (futureLocking φ).startLocks Nat
  requested := fun _ => false
  aborted := false

/-- A step of future `f`; if it fails an assertion the process is gone. -/
def futureStep (s : LockedFutures φ) (f : Addr) (a : FutureAction φ) : Option (LockedFutures φ) :=
  ((s.futures f).step a).map fun future =>
    { s with futures := Function.update s.futures f future, aborted := future.aborted }

/-- Thread `t` is asleep on the condition variable of future `f`. -/
def asleep (s : LockedFutures φ) (t : Nat) (f : Addr) : Bool :=
  match (s.futures f).waiter t with
  | .asleep _ => true
  | _ => false

/-- The condition of a move. -/
def enabled (s : LockedFutures φ) (t : Nat) : FuturePlace φ → FutureMove φ → Bool
  | .waitLocked f _, .sleep => !futureIsResolved (s.futures f).future
  | .waitLocked f _, .pass => futureIsResolved (s.futures f).future
  | .waitSleep f _, .lock => !s.asleep t f
  | .waitSleep _ _, .cancel => s.requested t
  | _, _ => true

/-- What a move does to its future. -/
def effectStep (s : LockedFutures φ) (t : Nat) (move : FutureMove φ) : Option (LockedFutures φ) :=
  match (s.lock.place t).effect t move with
  | some (f, a) => s.futureStep f a
  | none => some s

def moveStep (s : LockedFutures φ) (t : Nat) (move : FutureMove φ) : Option (LockedFutures φ) :=
  if s.enabled t (s.lock.place t) move then
    (s.effectStep t move).bind fun s' =>
      ((futureLocking φ).step s.lock (t, move)).map fun lock => { s' with lock := lock }
  else none

def step (s : LockedFutures φ) (a : LockedFutureAction φ) : Option (LockedFutures φ) :=
  if s.aborted then none
  else
    match a with
    | .move t move => s.moveStep t move
    | .walk f k w => s.futureStep f (.walk k w)
    | .request t => some { s with requested := Function.update s.requested t true }

def machine (φ : Type u) : Machine (LockedFutures φ) (LockedFutureAction φ) where
  start := start
  step := step

def thread : LockedFutureAction φ → Option Nat
  | .move t _ => some t
  | _ => none

/-! ## What a step can do -/

variable {s s' : LockedFutures φ} {t : Nat} {f : Addr} {move : FutureMove φ}
  {past more : List (LockedFutures φ × LockedFutureAction φ)}

theorem futureStep_cases {a : FutureAction φ} (stepped : s.futureStep f a = some s') :
    ∃ future, (s.futures f).step a = some future ∧ s' = { s with
      futures := Function.update s.futures f future, aborted := future.aborted } := by
  obtain ⟨future, taken, rfl⟩ := Option.map_eq_some_iff.1 stepped
  exact ⟨future, taken, rfl⟩

/-- A move that is not aborted: its condition held, the future took the action, if
there is one, and the thread went on to its next place. -/
theorem step_move (stepped : s.step (.move t move) = some s') :
    s.enabled t (s.lock.place t) move = true ∧ (∃ u, s.effectStep t move = some u ∧
      s'.futures = u.futures ∧ s'.aborted = u.aborted) ∧ s'.requested = s.requested ∧
      (futureLocking φ).step s.lock (t, move) = some s'.lock := by
  have moved := (Option.ite_none_left_eq_some.1 stepped).2
  simp only [moveStep, Option.ite_none_right_eq_some] at moved
  obtain ⟨enabled, moved⟩ := moved
  obtain ⟨u, acted, moved⟩ := Option.bind_eq_some_iff.1 moved
  obtain ⟨lock, locked, rfl⟩ := Option.map_eq_some_iff.1 moved
  refine ⟨enabled, ⟨u, acted, rfl, rfl⟩, ?_, locked⟩
  cases effect : (s.lock.place t).effect t move with
  | none =>
      simp only [effectStep, effect] at acted
      cases acted
      rfl
  | some on =>
      simp only [effectStep, effect] at acted
      obtain ⟨future, -, rfl⟩ := futureStep_cases acted
      rfl

/-! ## The machines inside -/

def lockAction (_ : LockedFutures φ) : LockedFutureAction φ → Option (Nat × FutureMove φ)
  | .move t move => some (t, move)
  | _ => none

/-- The action on a future that an action here is. -/
def effect (s : LockedFutures φ) : LockedFutureAction φ → Option (Addr × FutureAction φ)
  | .move t move => (s.lock.place t).effect t move
  | .walk f k w => some (f, .walk k w)
  | .request _ => none

/-- What an action is to future `f`. -/
def futureAction (f : Addr) (s : LockedFutures φ) (a : LockedFutureAction φ) :
    Option (FutureAction φ) :=
  match s.effect a with
  | some (g, b) => if g = f then some b else none
  | none => none

theorem projects_lock : Machine.Projects (machine φ) ((futureLocking φ).machine Nat)
    LockedFutures.lock lockAction := by
  intro s a s' stepped
  cases a with
  | move t move => exact (step_move stepped).2.2.2
  | walk f k w =>
      obtain ⟨future, -, rfl⟩ := futureStep_cases (Option.ite_none_left_eq_some.1 stepped).2
      rfl
  | request t =>
      cases (Option.ite_none_left_eq_some.1 stepped).2
      rfl

/-- A step is an action on at most one future. -/
theorem step_effect {a : LockedFutureAction φ} (stepped : s.step a = some s') :
    (s.effect a = none ∧ s'.futures = s.futures ∧ s'.aborted = s.aborted) ∨
      ∃ f b future, s.effect a = some (f, b) ∧ (s.futures f).step b = some future ∧
        s'.futures = Function.update s.futures f future ∧ s'.aborted = future.aborted := by
  cases a with
  | move t move =>
      obtain ⟨-, ⟨u, acted, futures, aborted⟩, -, -⟩ := step_move stepped
      cases effect : (s.lock.place t).effect t move with
      | none =>
          simp only [effectStep, effect] at acted
          cases acted
          exact Or.inl ⟨effect, futures, aborted⟩
      | some on =>
          simp only [effectStep, effect] at acted
          obtain ⟨future, taken, rfl⟩ := futureStep_cases acted
          exact Or.inr ⟨on.1, on.2, future, effect, taken, futures, aborted⟩
  | walk f k w =>
      obtain ⟨future, taken, rfl⟩ := futureStep_cases (Option.ite_none_left_eq_some.1 stepped).2
      exact Or.inr ⟨f, _, future, rfl, taken, rfl, rfl⟩
  | request t =>
      cases (Option.ite_none_left_eq_some.1 stepped).2
      exact Or.inl ⟨rfl, rfl, rfl⟩

theorem projects_future (f : Addr) : Machine.Projects (machine φ) (SharedFuture.machine φ)
    (fun s => s.futures f) (futureAction f) := by
  intro s a s' stepped
  rcases step_effect stepped with ⟨effect, futures, -⟩ | ⟨g, b, future, effect, taken, futures, -⟩
  · simp only [futureAction, effect]
    exact congrFun futures f
  · simp only [futureAction, effect, futures]
    by_cases same : g = f
    · subst same
      simpa [Machine.Moves, SharedFuture.machine] using taken
    · simp [Machine.Moves, same, Ne.symm same]

theorem run_lock (run : (machine φ).Run past s) :
    ((futureLocking φ).machine Nat).Run (Machine.projectPast LockedFutures.lock lockAction past)
      s.lock :=
  Machine.Run.project (π := LockedFutures.lock) (f := lockAction) rfl projects_lock run

/-- Every one of the futures is a future. -/
theorem run_future (run : (machine φ).Run past s) (f : Addr) :
    (SharedFuture.machine φ).Run
      (Machine.projectPast (fun s => s.futures f) (futureAction f) past) (s.futures f) :=
  Machine.Run.project (π := fun s : LockedFutures φ => s.futures f) (f := futureAction f) rfl
    (projects_future f) run

theorem owner_iff (run : (machine φ).Run past s) (f : Addr) (t : Nat) :
    s.lock.owner f = some t ↔ (s.lock.place t).owns = some f :=
  run_futureLock (run_lock run) f t

/-- Only the thread that takes a step changes place. -/
theorem step_place {a : LockedFutureAction φ} (stepped : s.step a = some s')
    (other : thread a ≠ some t) : s'.lock.place t = s.lock.place t := by
  have moves := projects_lock s a s' stepped
  cases a with
  | move u move => exact LockProtocol.step_other moves fun same => other (congrArg some same.symm)
  | walk | request => exact congrFun (congrArg Locks.place moves) t

theorem steps_place (steps : (machine φ).Steps s more s')
    (others : ∀ e ∈ more, thread e.2 ≠ some t) : s'.lock.place t = s.lock.place t := by
  induction steps with
  | none => rfl
  | @step more u a v before stepped ih =>
      have last : thread a ≠ some t := others (u, a) (by simp)
      rw [step_place stepped last]
      exact ih fun e member => others e (List.mem_append_left _ member)

end LockedFutures

end Cfutures
