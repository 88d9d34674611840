/-
# Pool.Ordered -- teardown, with the queue's mutex taken and given up

`Pool.Basic` takes a critical section of the queue in one step.  Here the pool runs
together with `Queue.Lock`: any thread that submits a task, the workers while they
run user code among them, is on its way through `queue_enqueue`, and a worker on its
way through `queue_pop` and, when it is cancelled there, through the handler that
gives the mutex up.  `pthread_join` waits for that too.

    execute t   lock t   link t   relinquish t   addCleanup t      future_pool_execute
    callPop w   lock w   pop w ..   relinquish w   pop w .return   queue_pop
    cancelled w (.wait _)   lock w   relinquish w                  its cancelled wait

Every run, seen through its pool or through its lock, is a run of those machines
(`run_pool`, `run_lock`).  A worker whose record has been released is gone, the mutex
given up (`run_joined`), which is what `queue_destroy` needs (`teardown_ordered`).
-/
import Cfutures.Pool.Joining
import Cfutures.Pool.Release
import Cfutures.Queue.Locked

namespace Cfutures

open Cfutures.Theory

set_option autoImplicit false

universe u v

/-- A thread that uses the pool: one of its workers, or any other. -/
abbrev PoolThread (n : Nat) := Fin n ⊕ Nat

structure OrderedPool (n : Nat) (F : Type u) (U : Type v) where
  pool : Pool n F U
  lock : QueueLock (PoolThread n) Addr
  /-- The `future_pool_execute` that a thread is in. -/
  submitting : PoolThread n → Option Addr

inductive OrderedAction (n : Nat) (F : Type u) (U : Type v) where
  | execute (t : PoolThread n) (fn : F) (args : Ptr)
  | lock (t : PoolThread n)
  | link (t : PoolThread n) (i : Addr) (item : Addr) (wake : Option (Fin n))
  | relinquish (t : PoolThread n)
  | addCleanup (t : PoolThread n) (i : Addr) (link : Addr)
  | callPop (w : Fin n)
  | pop (w : Fin n) (a : PopAction)
  | work (w : Fin n) (a : WorkAction)
  | client (i : Addr) (a : ClientAction U)
  | destroyFuture (i : Addr)
  | destroy (a : DestroyAction)
  | cancelled (w : Fin n) (a : CancelAction n)

namespace OrderedPool

variable {n : Nat} {F : Type u} {U : Type v}

def start (n : Nat) (F : Type u) (U : Type v) : OrderedPool n F U where
  pool := Pool.start n F U
  lock := (queueLocking Addr).startLocks (PoolThread n)
  submitting := fun _ => none

/-- What an action is to the pool. -/
def poolAction : OrderedAction n F U → Option (PoolAction n F U)
  | .execute _ fn args => some (.execute fn args)
  | .link _ i item wake => some (.enqueue i item wake)
  | .addCleanup _ i link => some (.addCleanup i link)
  | .pop w a => some (.pop w a)
  | .work w a => some (.work w a)
  | .client i a => some (.client i a)
  | .destroyFuture i => some (.destroyFuture i)
  | .destroy a => some (.destroy a)
  | .cancelled w a => some (.cancelled w a)
  | .lock _ | .relinquish _ | .callPop _ => none

/-- What an action is to the mutex of the queue. -/
def lockAction (s : OrderedPool n F U) :
    OrderedAction n F U → Option (PoolThread n × QueueMove Addr)
  | .execute t _ _ => some (t, .callEnqueue s.pool.submissions.length)
  | .lock t => some (t, .lock)
  | .link t _ _ _ => some (t, .link)
  | .relinquish t => some (t, .relinquish)
  | .callPop w => some (.inl w, .callPop)
  | .pop w .pop => some (.inl w, LockedQueue.popMove s.pool.workQueue)
  | .pop w .return => some (.inl w, .return)
  | .cancelled w (.wait _) => some (.inl w, .cancel)
  | .cancelled w .task | .cancelled w .callback => some (.inl w, .exit)
  | .pop _ .spurious | .addCleanup _ _ _ | .work _ _ | .client _ _ | .destroyFuture _
  | .destroy _ => none

/-- The thread that takes the step, where the action says. -/
def thread : OrderedAction n F U → Option (PoolThread n)
  | .execute t _ _ | .lock t | .link t _ _ _ | .relinquish t | .addCleanup t _ _ => some t
  | .callPop w | .pop w _ | .work w _ | .cancelled w _ => some (.inl w)
  | .client _ _ | .destroyFuture _ | .destroy _ => none

/-- A worker submits from a task function or a callback. -/
def runsUserCode (s : OrderedPool n F U) : PoolThread n → Bool
  | .inl w =>
      match s.pool.worker w with
      | .running _ => true
      | .settling _ f k => s.pool.inUserCallback f k
      | _ => false
  | .inr _ => true

/-- The thread is asleep in `pthread_cond_wait`. -/
def asleep (s : OrderedPool n F U) : PoolThread n → Bool
  | .inl w => decide (s.pool.workQueue.phase w = .asleep)
  | .inr _ => false

/-- The thread is where it takes the step.  There is no cancellation point in
`future_pool_execute`, and a thread can be joined when it has run its handlers. -/
def enabled (s : OrderedPool n F U) : OrderedAction n F U → Bool
  | .execute t _ _ => (s.submitting t).isNone && s.runsUserCode t
  | .lock t => !s.asleep t
  | .link t i _ _ => decide (s.lock.place t = .enqueueLocked i)
  | .addCleanup t i _ => decide (s.submitting t = some i ∧ s.lock.place t = .outside)
  | .callPop w => decide (s.pool.worker w = .popping)
  | .work w _ | .cancelled w _ => (s.submitting (.inl w)).isNone
  | .destroy .join => s.pool.handled.all fun w => (s.lock.place (.inl w)).terminated
  | _ => true

def submittingAfter (s : OrderedPool n F U) : OrderedAction n F U → PoolThread n → Option Addr
  | .execute t _ _ => Function.update s.submitting t (some s.pool.submissions.length)
  | .addCleanup t _ _ => Function.update s.submitting t none
  | _ => s.submitting

def step (s : OrderedPool n F U) (a : OrderedAction n F U) : Option (OrderedPool n F U) :=
  if s.enabled a = true ∧ s.pool.aborted = false then
    ((Pool.machine n F U).optStep s.pool (poolAction a)).bind fun pool =>
      (((queueLocking Addr).machine (PoolThread n)).optStep s.lock (s.lockAction a)).map
        fun lock => { pool := pool, lock := lock, submitting := s.submittingAfter a }
  else none

def machine (n : Nat) (F : Type u) (U : Type v) :
    Machine (OrderedPool n F U) (OrderedAction n F U) where
  start := start n F U
  step := step

/-! ## Whole calls, for concrete runs -/

/-- One undisturbed `future_pool_execute` by thread `t`, the `i`-th, with nobody to wake. -/
def executeCall (t : PoolThread n) (i : Addr) (fn : F) (args : Ptr) : List (OrderedAction n F U) :=
  [.execute t fn args, .lock t, .link t i i none, .relinquish t, .addCleanup t i 0]

/-- `queue_pop` that finds an item, up to the call of the task function. -/
def popCall (w : Fin n) : List (OrderedAction n F U) :=
  [.callPop w, .lock (.inl w), .pop w .pop, .relinquish (.inl w), .pop w .return, .work w .call]

/-- The rest of a turn of `executor_thread`, with the callback of the pool alone. -/
def fulfillCall (w : Fin n) (value : Ptr) : List (OrderedAction n F U) :=
  [.work w (.ret value), .work w .fulfill, .work w .settle, .work w (.walk .assertResolved),
    .work w (.walk .load), .work w (.walk .execute), .work w (.walk .next),
    .work w (.walk .finish), .work w .free]

/-- `executor_destroy` of a worker that goes to sleep in `queue_pop`. -/
def executorDestroyAsleep (w : Fin n) : List (OrderedAction n F U) :=
  [.destroy .next, .callPop w, .lock (.inl w), .pop w .pop, .destroy .cancel,
    .cancelled w (.wait none), .lock (.inl w), .relinquish (.inl w), .destroy .join]

/-! ## The two machines inside -/

variable {s t : OrderedPool n F U} {a : OrderedAction n F U} {w : Fin n}
variable {past : List (OrderedPool n F U × OrderedAction n F U)}

theorem step_moves (stepped : s.step a = some t) :
    s.enabled a = true ∧ (Pool.machine n F U).Moves s.pool (poolAction a) t.pool ∧
      ((queueLocking Addr).machine (PoolThread n)).Moves s.lock (s.lockAction a) t.lock := by
  simp only [step, Option.ite_none_right_eq_some, Option.bind_eq_some_iff,
    Option.map_eq_some_iff] at stepped
  obtain ⟨⟨enabled, -⟩, pool, moved, lock, locked, rfl⟩ := stepped
  exact ⟨enabled, Machine.moves_of_optStep moved, Machine.moves_of_optStep locked⟩

theorem run_pool (run : (machine n F U).Run past s) :
    (Pool.machine n F U).Run
      (Machine.projectPast OrderedPool.pool (fun _ => poolAction) past) s.pool :=
  Machine.Run.project (π := OrderedPool.pool) (f := fun _ => poolAction) rfl
    (fun _ _ _ stepped => (step_moves stepped).2.1) run

theorem run_lock (run : (machine n F U).Run past s) :
    ((queueLocking Addr).machine (PoolThread n)).Run
      (Machine.projectPast OrderedPool.lock lockAction past) s.lock :=
  Machine.Run.project (π := OrderedPool.lock) (f := lockAction) rfl
    (fun _ _ _ stepped => (step_moves stepped).2.2) run

/-- A thread changes place only by its own move. -/
theorem step_place (stepped : s.step a = some t) (x : PoolThread n) :
    t.lock.place x = s.lock.place x ∨
      ∃ move, s.lockAction a = some (x, move) ∧
        (s.lock.place x).next move = some (t.lock.place x) := by
  rcases Machine.moves_cases (step_moves stepped).2.2 with ⟨-, same⟩ | ⟨b, named, moves⟩
  · exact Or.inl (congrFun (congrArg Locks.place same) x)
  · by_cases own : x = b.1
    · subst own
      exact Or.inr ⟨b.2, named, LockProtocol.step_self moves⟩
    · exact Or.inl (LockProtocol.step_other moves own)

/-- A terminated thread stays where it is. -/
theorem step_terminated (stepped : s.step a = some t) {x : PoolThread n}
    (gone : (s.lock.place x).terminated = true) : t.lock.place x = s.lock.place x := by
  rcases step_place stepped x with same | ⟨move, -, moved⟩
  · exact same
  · rw [QueuePlace.next_alive moved] at gone
    cases gone

/-- A worker whose record has been released is gone. -/
def Joined (s : OrderedPool n F U) : Prop :=
  ∀ w : Fin n, s.pool.records w.val = none → (s.lock.place (.inl w)).terminated = true

theorem run_joined (run : (machine n F U).Run past s) : s.Joined := by
  induction run with
  | none =>
      intro w released
      obtain ⟨executor, present⟩ := Pool.start_record (F := F) (U := U) w
      rw [show (machine n F U).start.pool.records w.val = some executor from present] at released
      cases released
  | @step past s a t before stepped ih =>
      intro w released
      obtain ⟨enabled, moves, -⟩ := step_moves stepped
      have gone : (s.lock.place (.inl w)).terminated = true := by
        by_cases earlier : s.pool.records w.val = none
        · exact ih w earlier
        · rcases Machine.moves_cases moves with ⟨-, same⟩ | ⟨b, named, moves⟩
          · exact absurd (same ▸ released) earlier
          · obtain ⟨rfl, handled⟩ :=
              (Pool.run_enlisted (run_pool before)).handled_of_released moves earlier released
            cases a <;> cases named
            simpa [OrderedPool.enabled, handled] using enabled
      rw [step_terminated stepped gone]
      exact gone

/-- When the list is at its end no worker is left and none owns the mutex. -/
theorem all_terminated (run : (machine n F U).Run past s)
    (atEnd : s.pool.destroyer.rest s.pool.executors = none) (w : Fin n) :
    (s.lock.place (.inl w)).terminated = true ∧ s.lock.owner () ≠ some (.inl w) := by
  have gone := run_joined run w (Pool.all_released (run_pool run) atEnd w.val)
  refine ⟨gone, ?_⟩
  intro owner
  have within := (run_queueLock (run_lock run) (.inl w)).1 owner
  rw [QueuePlace.not_terminated within] at gone
  cases gone

/-! ## How a worker ends -/

/-- Terminated in the wait of `queue_pop`, or on the way. -/
def endsWaiting : QueuePlace Addr → Bool
  | .cancelLock | .cancelRelinquish | .cancelled => true
  | _ => false

theorem next_endsWaiting {p q : QueuePlace Addr} {move : QueueMove Addr}
    (moved : p.next move = some q) (ends : endsWaiting q = true) :
    move = .cancel ∨ endsWaiting p = true := by
  cases p <;> cases move <;> cases moved <;> simp_all [endsWaiting]

theorem next_exited {p : QueuePlace Addr} {move : QueueMove Addr}
    (moved : p.next move = some .exited) : move = .exit := by
  cases p <;> cases move <;> cases moved
  rfl

/-- A worker cancelled in a task function or in a callback. -/
def endsInUserCode : OrderedAction n F U → Bool
  | .cancelled _ .task | .cancelled _ .callback => true
  | _ => false

/-- Threads end only where they act on a cancellation. -/
theorem lockAction_ends {x : PoolThread n} {move : QueueMove Addr}
    (named : s.lockAction a = some (x, move)) (ends : move = .cancel ∨ move = .exit) :
    ∃ w b, x = .inl w ∧ a = .cancelled w b ∧ (move = .cancel → ∃ heir, b = .wait heir) ∧
      (move = .exit → endsInUserCode a = true) := by
  cases a with
  | cancelled w b => cases b <;> cases named <;> exact ⟨w, _, rfl, rfl, by simp [endsInUserCode]⟩
  | pop w b =>
      cases b with
      | pop =>
          have loops : move = LockedQueue.popMove s.pool.workQueue := by
            simp only [lockAction, Option.some.injEq, Prod.mk.injEq] at named
            exact named.2.symm
          rw [loops, LockedQueue.popMove] at ends
          split at ends <;> simp at ends
      | _ => cases named <;> simp at ends
  | _ => cases named <;> simp at ends

/-- A worker on its way out of the wait is terminated in the pool. -/
theorem run_endsWaiting (run : (machine n F U).Run past s)
    (ends : endsWaiting (s.lock.place (.inl w)) = true) :
    ∃ woken, s.pool.worker w = .terminated (.waiting woken) := by
  induction run with
  | none => cases ends
  | @step past s a t before stepped ih =>
      obtain ⟨-, moves, -⟩ := step_moves stepped
      have earlier : endsWaiting (s.lock.place (.inl w)) = true →
          ∃ woken, t.pool.worker w = .terminated (.waiting woken) := by
        intro ends
        obtain ⟨woken, gone⟩ := ih ends
        rcases Machine.moves_cases moves with ⟨-, same⟩ | ⟨b, -, taken⟩
        · exact ⟨woken, same ▸ gone⟩
        · exact ⟨woken, Pool.step_terminated gone taken⟩
      rcases step_place stepped (.inl w) with same | ⟨move, named, moved⟩
      · exact earlier (same ▸ ends)
      · rcases next_endsWaiting moved ends with rfl | onTheWay
        · obtain ⟨v, b, here, rfl, waits, -⟩ := lockAction_ends named (Or.inl rfl)
          obtain ⟨heir, rfl⟩ := waits rfl
          cases here
          exact Pool.cancelledWait_terminated moves
        · exact earlier onTheWay

/-- A worker that ended outside `queue_pop` was cancelled in user code. -/
theorem run_exited (run : (machine n F U).Run past s)
    (ended : s.lock.place (.inl w) = .exited) : ∃ e ∈ past, endsInUserCode e.2 = true := by
  induction run with
  | none => cases ended
  | @step past s a t before stepped ih =>
      rcases step_place stepped (.inl w) with same | ⟨move, named, moved⟩
      · obtain ⟨e, recorded, ends⟩ := ih (same ▸ ended)
        exact ⟨e, List.mem_append_left _ recorded, ends⟩
      · obtain rfl := next_exited (ended ▸ moved)
        obtain ⟨-, -, -, -, -, ends⟩ := lockAction_ends named (Or.inr rfl)
        exact ⟨(s, a), by simp, ends rfl⟩

/-- Without cancellation points in user code a worker ends in the wait of `queue_pop`. -/
theorem cancelled_of_terminated (run : (machine n F U).Run past s)
    (noPoint : ∀ e ∈ past, endsInUserCode e.2 = false)
    (gone : (s.lock.place (.inl w)).terminated = true) : s.lock.place (.inl w) = .cancelled := by
  cases place : s.lock.place (.inl w) with
  | cancelled => rfl
  | exited =>
      obtain ⟨e, recorded, ends⟩ := run_exited run place
      rw [noPoint e recorded] at ends
      cases ends
  | _ => simp [place, QueuePlace.terminated] at gone

/-! ## The teardown -/

/-- The step is, in the pool, one that `p` counts. -/
def counts (p : Pool n F U → PoolAction n F U → Bool)
    (e : OrderedPool n F U × OrderedAction n F U) : Bool :=
  (poolAction e.2).any (p e.1.pool)

theorem countP_counts (p : Pool n F U → PoolAction n F U → Bool)
    (past : List (OrderedPool n F U × OrderedAction n F U)) :
    past.countP (counts p) = (Machine.projectPast OrderedPool.pool (fun _ => poolAction)
      past).countP fun e => p e.1 e.2 :=
  (Machine.countP_projectPast OrderedPool.pool (fun _ => poolAction) p past).symm

/-- In the steps recorded, closure `c` has run to its end: its function has returned,
its promise has been fulfilled with the value, once, and it has been released, once. -/
def DoneWith (past : List (OrderedPool n F U × OrderedAction n F U)) (s : Pool n F U)
    (c : Addr) : Prop :=
  (∃ task value, s.submissions[c]? = some task ∧ s.life c = .settled task value) ∧
    past.countP (counts (Pool.frees c)) = 1

theorem doneWith_of_idle (run : (machine n F U).Run past s) {d : Delivery (Fin n) Addr}
    (member : d ∈ s.pool.workQueue.delivered) (idle : ¬ s.pool.Busy d) :
    DoneWith past s.pool d.value := by
  refine ⟨(Pool.run_ledger (run_pool run)).finished d member idle, ?_⟩
  rw [countP_counts]
  exact Pool.released_once (run_pool run) member idle

/-- A step on the mutex is of a live thread. -/
theorem alive_of_lockAction (stepped : s.step a = some t) {x : PoolThread n}
    {move : QueueMove Addr} (named : s.lockAction a = some (x, move)) :
    (s.lock.place x).terminated = false := by
  obtain ⟨-, -, moves⟩ := step_moves stepped
  rw [named] at moves
  exact QueuePlace.next_alive (LockProtocol.step_self moves)

/-- No worker takes a step once `queue_destroy` has been called. -/
theorem thread_of_gone (run : (machine n F U).Run past s)
    (called : s.pool.destroyer.queueGone = true) (stepped : s.step a = some t) :
    thread a ≠ some (.inl w) := by
  have atEnd := Destroyer.rest_of_gone called s.pool.executors
  obtain ⟨gone, -⟩ := all_terminated run atEnd w
  obtain ⟨l, torn⟩ := Pool.run_torn (run_pool run)
  have ended := torn.all_terminated atEnd w
  obtain ⟨enabled, moves, -⟩ := step_moves stepped
  -- on the mutex a terminated thread has no move
  have still : ∀ move, s.lockAction a ≠ some (.inl w, move) := fun move named => by
    rw [alive_of_lockAction stepped named] at gone
    cases gone
  intro own
  cases a with
  | execute x | lock x | link x | relinquish x =>
      cases own
      exact still _ rfl
  | callPop v =>
      cases own
      exact still _ rfl
  | addCleanup x i link =>
      cases own
      have outside : s.lock.place (.inl w) = .outside := by
        simpa [OrderedPool.enabled] using And.right (of_decide_eq_true enabled)
      rw [outside] at gone
      cases gone
  | pop v b =>
      cases own
      rw [Pool.alive_of_pop moves] at ended
      cases ended
  | work v b =>
      cases own
      rw [Pool.alive_of_work moves] at ended
      cases ended
  | cancelled v b =>
      cases own
      cases b <;> exact still _ rfl
  | _ => cases own

/-- What holds of the teardown in a run. -/
structure Ordered (past : List (OrderedPool n F U × OrderedAction n F U))
    (s : OrderedPool n F U) : Prop where
  /-- A `future_pool_destroy` has cancelled and joined each worker once when it has called
  `queue_destroy`, and so when it has returned. -/
  once : s.pool.destroyer.queueGone = true → ∀ w,
    past.countP (counts (Pool.cancels w)) = 1 ∧ past.countP (counts (Pool.joins w)) = 1
  /-- The record that it reads next has not been released. -/
  reads : ∀ u ∈ Machine.visited past s, ∀ e,
    u.pool.destroyer.record = some e → u.pool.records e ≠ none
  /-- `queue_destroy` starts when every worker has terminated and none owns the mutex. -/
  last : ∀ e ∈ past, e.2 = .destroy .queueDestroy → ∀ w,
    (e.1.lock.place (.inl w)).terminated = true ∧ e.1.lock.owner () ≠ some (.inl w)
  /-- No worker takes a step on a destroyed queue. -/
  after : ∀ e ∈ past, e.1.pool.destroyer.queueGone = true → ∀ w, thread e.2 ≠ some (.inl w)
  /-- Without cancellation points in user code, a worker ends in the wait of `queue_pop`
  and has done with every closure the queue gave it before it ends. -/
  settled : (∀ e ∈ past, endsInUserCode e.2 = false) → ∀ w,
    (s.lock.place (.inl w)).terminated = true →
    s.lock.place (.inl w) = .cancelled ∧
      ∃ before u heir after, past = before ++ (u, .cancelled w (.wait heir)) :: after ∧
        ∀ d ∈ s.pool.workQueue.delivered, d.consumer = w →
          DoneWith before u.pool d.value ∧ DoneWith past s.pool d.value

/-- **Teardown is safely ordered**, on every run. -/
theorem teardown_ordered (run : (machine n F U).Run past s) : Ordered past s where
  once called w := by
    rw [countP_counts, countP_counts]
    exact Pool.cancelled_and_joined_once (run_pool run) (Destroyer.rest_of_gone called _) w
  reads u seen e at_ := by
    obtain ⟨earlier, -, -, upto⟩ := Machine.Run.of_visited run seen
    exact Pool.at_record (run_pool upto) at_
  last e recorded queueDestroy w := by
    obtain ⟨before, -, u, -, upto, stepped, -⟩ := Machine.Steps.of_mem run recorded
    obtain ⟨-, moves, -⟩ := step_moves stepped
    rw [queueDestroy] at moves
    exact all_terminated upto (by rw [Pool.walked_of_queueDestroy moves]; rfl) w
  after e recorded called w own := by
    obtain ⟨before, -, u, -, upto, stepped, -⟩ := Machine.Steps.of_mem run recorded
    exact thread_of_gone upto called stepped own
  settled noPoint w gone := by
    have place := cancelled_of_terminated run noPoint gone
    obtain ⟨woken, ended⟩ := run_endsWaiting run (w := w) (by rw [place]; rfl)
    obtain ⟨_, u, heir, _, split, -, idle⟩ := Pool.idle_at_end (run_pool run) ended
    obtain ⟨before, ⟨v, a⟩, after, rfl, -, named, rfl⟩ := Machine.projectPast_split _ _ split
    obtain rfl : a = .cancelled w (.wait heir) := by
      cases a <;> cases named
      rfl
    refine ⟨place, before, v, heir, after, rfl, ?_⟩
    intro d member mine
    obtain ⟨earlier, notBusy⟩ := idle d member mine
    refine ⟨doneWith_of_idle (Machine.Steps.upto run) earlier notBusy,
      doneWith_of_idle run member ?_⟩
    rintro (holds | ⟨⟨item, holding⟩, -⟩)
    · rw [mine, ended] at holds
      cases holds
    · have phase := (Pool.run_ledger (run_pool run)).phase w
      rw [mine] at holding
      rw [ended, holding] at phase
      cases phase

/-- The first task submits the second one, which the other worker runs. -/
theorem teardown_ordered_two :
    ∃ past s, (machine 2 String Unit).Run past s ∧ s.pool.destroyer = .done ∧
      (∀ w, past.countP (counts (Pool.cancels w)) = 1 ∧
        past.countP (counts (Pool.joins w)) = 1) ∧
      (∀ w, s.lock.place (.inl w) = .cancelled) ∧
      ∃ d ∈ s.pool.workQueue.delivered, d.consumer = 1 ∧ DoneWith past s.pool d.value := by
  obtain ⟨past, s, run, seen⟩ := Machine.exists_run_of_exec (M := machine 2 String Unit)
    (p := fun r => decide (r.2.pool.destroyer = .done) &&
      r.1.all (fun e => !endsInUserCode e.2) &&
      decide (∀ w, (r.2.lock.place (.inl w)).terminated = true) &&
      r.2.pool.workQueue.delivered.any fun d => decide (d.consumer = 1))
    (executeCall (.inr 0) 0 "produce" none ++ popCall 0 ++ executeCall (.inl 0) 1 "consume" none ++
      fulfillCall 0 (some 1) ++ popCall 1 ++ [.destroy .destroy] ++ fulfillCall 1 (some 2) ++
      executorDestroyAsleep 1 ++ executorDestroyAsleep 0 ++ [.destroy .queueDestroy]) (by decide)
  simp only [Bool.and_eq_true, decide_eq_true_eq, List.all_eq_true, List.any_eq_true,
    Bool.not_eq_true'] at seen
  obtain ⟨⟨⟨done, noPoint⟩, gone⟩, d, member, mine⟩ := seen
  have ordered := teardown_ordered run
  refine ⟨past, s, run, done, ordered.once (by rw [done]; rfl),
    fun w => (ordered.settled noPoint w (gone w)).1, d, member, mine, ?_⟩
  obtain ⟨-, before, u, heir, after, -, finished⟩ := ordered.settled noPoint 1 (gone 1)
  exact (finished d member mine).2

end OrderedPool

end Cfutures
