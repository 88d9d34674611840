/-
# Pool.Waiting -- a pool whose tasks wait on futures, and its teardown

The pool of `Pool.Basic` together with the threads and mutexes of `Future.Locked`.
Worker `w` is thread `w.val` there, every other number is another thread.  While it
has a task a worker works on futures: it settles the task's own, and the task function
and the callbacks it runs may wait on any, register callbacks on any and settle any.

Requests come from the teardown alone (`pthread_cancel`), and a worker acts on one in
`queue_pop` or in user code, in `Future.Locked` an `exit`, or inside `future_wait`
(`cancelledInWait`), which is in user code too.  The two parts have these steps in
common and are otherwise free, so the interleavings of a real pool are among the runs.

The futures stay usable exactly in the runs in which no worker acts on its request
inside `future_wait` (`futures_usable_iff`); in `future_unusable_after_cancel` one does.
-/
import Cfutures.Pool.Joining
import Cfutures.Future.Cancellation

namespace Cfutures

open Cfutures.Theory

set_option autoImplicit false

universe u v

structure WaitingPool (n : Nat) (F : Type u) (U : Type v) where
  pool : Pool n F U
  futures : LockedFutures (CallbackFn U)

inductive WaitingAction (n : Nat) (F : Type u) (U : Type v) where
  | pool (a : PoolAction n F U)
  | move (t : Nat) (move : FutureMove (CallbackFn U))
  | walk (f : Addr) (call : Nat) (step : WalkStep)
  | cancelledInWait (w : Fin n) (inCallback : Bool)

namespace WaitingPool

variable {n : Nat} {F : Type u} {U : Type v}

def start (n : Nat) (F : Type u) (U : Type v) : WaitingPool n F U where
  pool := Pool.start n F U
  futures := LockedFutures.start

/-- What an action is to the pool. -/
def poolAction : WaitingAction n F U → Option (PoolAction n F U)
  | .pool a => some a
  | .cancelledInWait w inCallback => some (.cancelled w (if inCallback then .callback else .task))
  | .move _ _ | .walk _ _ _ => none

/-- What an action is to the futures. -/
def futuresAction (s : WaitingPool n F U) :
    WaitingAction n F U → Option (LockedFutureAction (CallbackFn U))
  | .pool (.destroy .cancel) => s.pool.handled.map fun w => .request w.val
  | .pool (.cancelled w _) => some (.move w.val .exit)
  | .pool _ => none
  | .move t move => some (.move t move)
  | .walk f k step => some (.walk f k step)
  | .cancelledInWait w _ => some (.move w.val .cancel)

/-- The worker is between `queue_pop` and `free (closure)`. -/
def hasTask (s : WaitingPool n F U) (w : Fin n) : Bool :=
  match s.pool.worker w with
  | .popping | .terminated _ => false
  | _ => true

/-- The thread is in no operation on a future. -/
def outside (s : WaitingPool n F U) (t : Nat) : Bool :=
  match s.futures.lock.place t with
  | .outside => true
  | _ => false

/-- A worker goes on in `executor_thread` when it is back from the futures, and ends by
the steps of the pool only. -/
def enabled (s : WaitingPool n F U) : WaitingAction n F U → Bool
  | .pool (.work w _) => s.outside w.val
  | .move _ .cancel | .move _ .exit => false
  | .move t _ => decide (∀ w : Fin n, w.val = t → s.hasTask w = true)
  | _ => true

def step (s : WaitingPool n F U) (a : WaitingAction n F U) : Option (WaitingPool n F U) :=
  if s.enabled a = true ∧ s.pool.aborted = false ∧ s.futures.aborted = false then
    ((Pool.machine n F U).optStep s.pool (poolAction a)).bind fun pool =>
      ((LockedFutures.machine (CallbackFn U)).optStep s.futures (s.futuresAction a)).map
        fun futures => { pool := pool, futures := futures }
  else none

def machine (n : Nat) (F : Type u) (U : Type v) :
    Machine (WaitingPool n F U) (WaitingAction n F U) where
  start := start n F U
  step := step

/-! ## The two machines inside -/

variable {s t : WaitingPool n F U} {a : WaitingAction n F U}
variable {past more : List (WaitingPool n F U × WaitingAction n F U)}

theorem step_moves (stepped : s.step a = some t) :
    s.enabled a = true ∧ (Pool.machine n F U).Moves s.pool (poolAction a) t.pool ∧
      (LockedFutures.machine (CallbackFn U)).Moves s.futures (s.futuresAction a) t.futures := by
  simp only [step, Option.ite_none_right_eq_some, Option.bind_eq_some_iff,
    Option.map_eq_some_iff] at stepped
  obtain ⟨⟨enabled, -⟩, pool, moved, futures, locked, rfl⟩ := stepped
  exact ⟨enabled, Machine.moves_of_optStep moved, Machine.moves_of_optStep locked⟩

theorem projects_pool : Machine.Projects (machine n F U) (Pool.machine n F U) WaitingPool.pool
    fun _ => poolAction := fun _ _ _ stepped => (step_moves stepped).2.1

theorem projects_futures : Machine.Projects (machine n F U)
    (LockedFutures.machine (CallbackFn U)) WaitingPool.futures futuresAction :=
  fun _ _ _ stepped => (step_moves stepped).2.2

/-- Seen through its pool a run is a run of the pool. -/
theorem run_pool (run : (machine n F U).Run past s) :
    (Pool.machine n F U).Run
      (Machine.projectPast WaitingPool.pool (fun _ => poolAction) past) s.pool :=
  Machine.Run.project (π := WaitingPool.pool) (f := fun _ => poolAction) rfl projects_pool run

theorem run_futures (run : (machine n F U).Run past s) :
    (LockedFutures.machine (CallbackFn U)).Run
      (Machine.projectPast WaitingPool.futures futuresAction past) s.futures :=
  Machine.Run.project (π := WaitingPool.futures) (f := futuresAction) rfl projects_futures run

/-- The step is a cancellation acted on inside `future_wait`. -/
def cancelsWait : WaitingAction n F U → Bool
  | .cancelledInWait _ _ => true
  | _ => false

theorem cancelsWait_futures (stepped : s.step a = some t) :
    (s.futuresAction a).any LockedFutures.cancelsWait = cancelsWait a := by
  cases a with
  | pool b =>
      cases b with
      | destroy b =>
          cases b with
          | cancel =>
              simp only [futuresAction]
              cases s.pool.handled <;> rfl
          | _ => rfl
      | _ => rfl
  | move t move =>
      have enabled := (step_moves stepped).1
      cases move <;> first | rfl | cases enabled
  | _ => rfl

/-- The futures act on a cancellation in `future_wait` when a worker does. -/
theorem never_cancelsWait_iff (run : (machine n F U).Run past s) :
    (∀ e ∈ Machine.projectPast WaitingPool.futures futuresAction past,
        LockedFutures.cancelsWait e.2 = false) ↔ ∀ e ∈ past, cancelsWait e.2 = false := by
  constructor
  · intro never e recorded
    obtain ⟨-, -, u, -, -, stepped, -⟩ := Machine.Steps.of_mem run recorded
    rw [← cancelsWait_futures stepped]
    cases named : e.1.futuresAction e.2 with
    | none => rfl
    | some b =>
        exact never (e.1.futures, b)
          ((Machine.mem_projectPast _ _).2 ⟨e, recorded, named, rfl⟩)
  · intro never e seen
    obtain ⟨d, recorded, named, -⟩ := (Machine.mem_projectPast _ _).1 seen
    obtain ⟨-, -, u, -, -, stepped, -⟩ := Machine.Steps.of_mem run recorded
    have here := never d recorded
    rw [← cancelsWait_futures stepped, named] at here
    exact here

/-- **The futures that tasks wait on stay usable exactly in the runs in which no worker
is cancelled inside `future_wait`.** -/
theorem futures_usable_iff (run : (machine n F U).Run past s) :
    (∀ u ∈ Machine.visited past s, u.futures.Usable) ↔
      ∀ e ∈ past, cancelsWait e.2 = false := by
  rw [← never_cancelsWait_iff run, ← LockedFutures.usable_iff (run_futures run)]
  constructor
  · intro usable p seen
    obtain ⟨u, visited, rfl⟩ := (Machine.Steps.mem_visited_project projects_futures run).1 seen
    exact usable u visited
  · intro usable u visited
    exact usable u.futures
      ((Machine.Steps.mem_visited_project projects_futures run).2 ⟨u, visited, rfl⟩)

/-! ## Concrete runs -/

/-- A worker takes the only task there is, which waits for future `f`, and is asked to
end while it is asleep there. -/
def waitingTask (w : Fin n) (fn : F) (f : Addr) : List (WaitingAction n F U) :=
  let before : List (PoolAction n F U) :=
    Pool.executeCall 0 fn none ++ [.pop w .pop, .pop w .return, .work w .call]
  let after : List (PoolAction n F U) := [.destroy .destroy, .destroy .next, .destroy .cancel]
  before.map .pool ++ [.move w.val (.callWait f false), .move w.val .lock, .move w.val .sleep] ++
    after.map .pool

/-- The task waits for future 5, is woken by another thread that settles it, and is
cancelled between that wait and its end. -/
theorem futures_usable_after_settle :
    ∃ past s, (machine 1 String Unit).Run past s ∧ s.pool.destroyer = .done ∧
      futureIsResolved (s.futures.futures 5).future = true ∧ s.futures.Usable := by
  obtain ⟨past, s, run, seen⟩ := Machine.exists_run_of_exec (M := machine 1 String Unit)
    (p := fun r => decide (r.2.pool.destroyer = .done) &&
      futureIsResolved (r.2.futures.futures 5).future && r.1.all fun e => !cancelsWait e.2)
    (waitingTask 0 "wait" 5 ++ [.move 1 (.callSettle 5 (.fulfill (some 7))),
      .move 1 .lock, .move 1 .settle, .move 1 .unlock, .move 0 .lock, .move 0 .pass,
      .move 0 .unlock, .pool (.cancelled 0 .task), .pool (.destroy .join),
      .pool (.destroy .queueDestroy)]) (by decide)
  simp only [Bool.and_eq_true, decide_eq_true_eq, List.all_eq_true, Bool.not_eq_true'] at seen
  obtain ⟨⟨done, resolved⟩, never⟩ := seen
  exact ⟨past, s, run, done, resolved,
    (futures_usable_iff run).2 never s (List.mem_append_right _ (List.mem_singleton_self s))⟩

/-- The task waits for future 5 and is cancelled there.  The pool is torn down, and the
thread that is to settle the future never gets its mutex. -/
theorem future_unusable_after_cancel :
    ∃ past s, (machine 1 String Unit).Run past s ∧ s.pool.destroyer = .done ∧
      ¬ s.futures.Usable ∧ (s.futures.lock.place 1).wantsLock = some 5 ∧
      ∀ more t, (machine 1 String Unit).Steps s more t → t.futures.lock.owner 5 = some 0 := by
  obtain ⟨past, s, run, seen⟩ := Machine.exists_run_of_exec (M := machine 1 String Unit)
    (p := fun r => decide (r.2.pool.destroyer = .done) &&
      decide ((r.2.futures.lock.place 0).owns = some 5) &&
      (r.2.futures.lock.place 0).isTerminated &&
      decide ((r.2.futures.lock.place 1).wantsLock = some 5))
    (waitingTask 0 "wait" 5 ++ [.cancelledInWait 0 false, .pool (.destroy .join),
      .pool (.destroy .queueDestroy), .move 1 (.callSettle 5 (.fulfill (some 7)))]) (by decide)
  simp only [Bool.and_eq_true, decide_eq_true_eq] at seen
  obtain ⟨⟨⟨done, owns⟩, gone⟩, wants⟩ := seen
  have place := FuturePlace.terminated_of_owns gone owns
  refine ⟨past, s, run, done, ?_, wants, ?_⟩
  · intro usable
    have alive := usable.alive 5 0 ((LockedFutures.owner_iff (run_futures run) 5 0).2 owns)
    rw [gone] at alive
    cases alive
  · intro more t steps
    exact (LockedFutures.gone_owner_stays (run_futures run) place
      (Machine.Steps.project projects_futures steps)).2

end WaitingPool

end Cfutures
