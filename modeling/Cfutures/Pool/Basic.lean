/-
# Pool.Basic -- a future pool, its workers, its callers and its teardown

The machine of the whole library: `future_pool_execute` by any callers, the loop
of `executor_thread` on `n` workers, callers that wait on the futures they were
given and destroy them, and one `future_pool_destroy`.

The queue is a `WorkQueue` whose consumers are the workers and whose values are
closures, and every future is a `SharedFuture`: their steps are steps here.
Objects are named by their allocation, which is never reused: promise, future and
closure of the `i`-th `future_pool_execute` are each number `i` of their kind.
A pointer between them is still a field of a record that a step reads.

    caller   execute: promise_new, closure   enqueue   addCleanup   ...   destroyFuture
    worker   pop ... fetched -> running -> ran -> fulfilling -> settling -> releasing -> pop
    teardown walking e -> cancelling -> joining -> walking next -> ... -> walking NULL
             -> done, or atReleased if `queue_destroy` finds items on the list

Task functions and user callbacks are the environment: when they return, with
what, and what else they do to the library is any interleaving of the actions
here.  `pthread_cancel` only leaves a request; a worker acts on it in the wait
inside `queue_pop`, in a task function or in a user callback.

Destroying a promise or a future is recorded, and the record of a future stays as
it is: a step that still uses one is not disabled but counted (`touches`), and what
it reads there is not to be relied on.  The mutexes of the futures are not in this
machine: a section under one is a single step, which never blocks.  They are in
`WaitingPool`, with the workers that are cancelled while they own one.
-/
import Cfutures.Queue.WorkQueue
import Cfutures.Queue.Destroy
import Cfutures.Future.Shared
import Mathlib.Data.List.FinRange

namespace Cfutures

open Cfutures.Theory

set_option autoImplicit false

universe u v

/-- `struct _promise_t`. -/
structure Promise where
  future : Addr

/-- `closure_t`; `F` is the type of task functions. -/
structure Closure (F : Type u) where
  promise : Addr
  fn : F
  args : Ptr

/-- `struct _executor_t`, its thread the number of a worker. -/
structure Executor (n : Nat) where
  thread : Option (Fin n)
  next : Ptr

/-- A callback on a future of the pool: `cleanup_execute`, or one of a caller's. -/
inductive CallbackFn (U : Type v) where
  | cleanupExecute
  | user (fn : U)
  deriving DecidableEq

/-- Where a cancelled worker was.  In the wait of `queue_pop` it had been woken
already, or not. -/
inductive Ending where
  | waiting (woken : Bool)
  | task (closure : Addr)
  | callback (closure : Addr)
  deriving DecidableEq

/-- Where a worker is in `executor_thread`; in `queue_pop` its `Phase` says where. -/
inductive Worker where
  | popping
  | fetched (closure : Addr)
  | running (closure : Addr)
  | ran (closure : Addr) (value : Ptr)
  | fulfilling (closure : Addr) (future : Addr) (value : Ptr)
  | settling (closure : Addr) (future : Addr) (call : Nat)
  | releasing (closure : Addr)
  | terminated (ending : Ending)
  deriving DecidableEq

/-- How far a `future_pool_execute` and the future it returns have come. -/
inductive Stage where
  | unborn
  | created
  | enqueued
  | returned
  | destroyed
  deriving DecidableEq

/-- Where the thread in `future_pool_destroy` is.  It does not come back from an item
that its `queue_destroy` has released (`atReleased`). -/
inductive Destroyer where
  | idle
  | walking (next : Ptr)
  | cancelling (tofree : Addr) (next : Ptr)
  | joining (tofree : Addr) (next : Ptr)
  | atReleased (item : Addr)
  | done
  deriving DecidableEq

/-- How `queue_destroy` leaves the thread that has called it. -/
def Destroyer.ofQueue {α : Type u} : DestroyEnd α → Destroyer
  | .done _ _ => .done
  | .freesReleased item | .readsReleased item => .atReleased item

/-- `queue_destroy` has been called. -/
def Destroyer.queueGone : Destroyer → Bool
  | .atReleased _ | .done => true
  | _ => false

theorem Destroyer.ofQueue_gone {α : Type u} (outcome : DestroyEnd α) :
    (Destroyer.ofQueue outcome).queueGone = true := by
  cases outcome <;> rfl

theorem Destroyer.ofQueue_ne {α : Type u} (outcome : DestroyEnd α) {d : Destroyer}
    (there : d.queueGone = false) : Destroyer.ofQueue outcome ≠ d := by
  rintro rfl
  rw [ofQueue_gone] at there
  cases there

/-- `queue_destroy` returns if the list is empty, and only then. -/
theorem Destroyer.ofQueue_cases {α : Type u} {queue : Queue α} {outcome : DestroyEnd α}
    (ended : queueDestroy 1 queue = some outcome) :
    (queue.head = none ∧ Destroyer.ofQueue outcome = .done) ∨
      ∃ item, queue.head = some item ∧ Destroyer.ofQueue outcome = .atReleased item := by
  rcases queueDestroy_one queue with ⟨empty, done⟩ | ⟨item, atHead, frees | reads⟩
  · rw [done] at ended
    cases ended
    exact Or.inl ⟨empty, rfl⟩
  · rw [frees] at ended
    cases ended
    exact Or.inr ⟨item, atHead, rfl⟩
  · rw [reads] at ended
    cases ended
    exact Or.inr ⟨item, atHead, rfl⟩

/-- One call of a task function. -/
structure Call (F : Type u) where
  closure : Addr
  fn : F
  args : Ptr

structure Pool (n : Nat) (F : Type u) (U : Type v) where
  workQueue : WorkQueue (Fin n) Addr
  executors : Ptr
  records : Store Addr (Executor n)
  closures : Store Addr (Closure F)
  promises : Store Addr Promise
  futures : Addr → SharedFuture (CallbackFn U)
  stage : Addr → Stage
  worker : Fin n → Worker
  cancelRequested : Fin n → Bool
  destroyer : Destroyer
  aborted : Bool
  /-- Function and argument of every `future_pool_execute`, in order. -/
  submissions : List (F × Ptr)
  calls : List (Call F)
  results : List (Addr × Ptr)
  destroyedPromises : List Addr
  /-- The workers that have terminated, in order. -/
  ended : List (Fin n)

/-- What a caller that has been given a future does with it. -/
inductive ClientAction (U : Type v) where
  | addCallback (link : Addr) (callbackFn : Option U) (args : Ptr)
  | wait (waiter : Nat) (get : Bool)
  | check (waiter : Nat)
  | spurious (waiter : Nat)
  | get (waiter : Nat)

/-- A worker's steps in `queue_pop`. -/
inductive PopAction where
  | pop
  | return
  | spurious

/-- A worker's steps outside `queue_pop`. -/
inductive WorkAction where
  | call
  | ret (value : Ptr)
  | fulfill
  | settle
  | walk (step : WalkStep)
  | free

/-- The steps of `future_pool_destroy`. -/
inductive DestroyAction where
  | destroy
  | next
  | cancel
  | join
  | queueDestroy

/-- Where a worker acts on a cancellation request. -/
inductive CancelAction (n : Nat) where
  | wait (heir : Option (Fin n))
  | task
  | callback

inductive PoolAction (n : Nat) (F : Type u) (U : Type v) where
  | execute (fn : F) (args : Ptr)
  | enqueue (i : Addr) (item : Addr) (wake : Option (Fin n))
  | addCleanup (i : Addr) (link : Addr)
  | client (i : Addr) (a : ClientAction U)
  | destroyFuture (i : Addr)
  | pop (w : Fin n) (a : PopAction)
  | work (w : Fin n) (a : WorkAction)
  | destroy (a : DestroyAction)
  | cancelled (w : Fin n) (a : CancelAction n)

/-- `executor_new`, with what `pthread_create` left in `thread`. -/
def executorNew {n : Nat} (thread : Option (Fin n)) : Executor n :=
  { thread := thread, next := none }

def executorSetNext {n : Nat} (self : Executor n) (next : Ptr) : Executor n :=
  { self with next := next }

/-- One turn of the loop of `future_pool_new`, with the new executor at `w`. -/
def futurePoolAdd {n : Nat} (pool : Ptr × Store Addr (Executor n)) (w : Fin n) :
    Ptr × Store Addr (Executor n) :=
  (some w.val, pool.2.put w.val (executorSetNext (executorNew (some w)) pool.1))

/-- The executors that `future_pool_new` links, all threads created. -/
def futurePoolNew (n : Nat) : Ptr × Store Addr (Executor n) :=
  (List.finRange n).foldl futurePoolAdd (none, Store.empty)

def ClientAction.onFuture {U : Type v} : ClientAction U → FutureAction (CallbackFn U)
  | .addCallback link callbackFn args => .addCallback link (callbackFn.map .user) args
  | .wait w getting => .wait w getting
  | .check w => .check w
  | .spurious w => .spurious w
  | .get w => .get w

namespace Pool

variable {n : Nat} {F : Type u} {U : Type v}

def start (n : Nat) (F : Type u) (U : Type v) : Pool n F U where
  workQueue := WorkQueue.start
  executors := (futurePoolNew n).1
  records := (futurePoolNew n).2
  closures := Store.empty
  promises := Store.empty
  futures := fun _ => SharedFuture.start
  stage := fun _ => .unborn
  worker := fun _ => .popping
  cancelRequested := fun _ => false
  destroyer := .idle
  aborted := false
  submissions := []
  calls := []
  results := []
  destroyedPromises := []
  ended := []

/-- A step of future `i`; if it fails an assertion the process is gone. -/
def futureStep (s : Pool n F U) (i : Addr) (a : FutureAction (CallbackFn U)) :
    Option (Pool n F U) :=
  ((s.futures i).step a).map fun future =>
    { s with futures := Function.update s.futures i future, aborted := future.aborted }

def moveWorker (s : Pool n F U) (w : Fin n) (place : Worker) : Pool n F U :=
  { s with worker := Function.update s.worker w place }

def setStage (s : Pool n F U) (i : Addr) (stage : Stage) : Pool n F U :=
  { s with stage := Function.update s.stage i stage }

/-! ## Callers -/

/-- `future_pool_execute` up to the call of `queue_enqueue`. -/
def executeStep (s : Pool n F U) (fn : F) (args : Ptr) : Option (Pool n F U) :=
  if s.destroyer.queueGone then none
  else
    let i := s.submissions.length
    some (setStage { s with
      closures := s.closures.put i { promise := i, fn := fn, args := args }
      promises := s.promises.put i { future := i }
      submissions := s.submissions ++ [(fn, args)] } i .created)

/-- `queue_enqueue (self->work_queue, closure)`. -/
def enqueueStep (s : Pool n F U) (i : Addr) (item : Addr) (wake : Option (Fin n)) :
    Option (Pool n F U) :=
  if s.stage i = .created ∧ s.destroyer.queueGone = false then
    (s.workQueue.enqueueStep item i wake).map fun workQueue =>
      { s with workQueue := workQueue }.setStage i .enqueued
  else none

/-- `future_add_callback (future, cleanup_execute, (void *) promise)`, and return. -/
def addCleanupStep (s : Pool n F U) (i : Addr) (link : Addr) : Option (Pool n F U) :=
  if s.stage i = .enqueued then
    (s.futureStep i (.addCallback link (some .cleanupExecute) (some i))).map fun t =>
      t.setStage i .returned
  else none

def clientStep (s : Pool n F U) (i : Addr) (a : ClientAction U) : Option (Pool n F U) :=
  if s.stage i = .returned then s.futureStep i a.onFuture else none

/-- `future_destroy` by the caller that was given future `i`, waiter 0 of it, once
its `future_get` or `future_wait` has returned.  Callers are done with it; a worker's
later use of it is counted by `touches`. -/
def destroyFutureStep (s : Pool n F U) (i : Addr) : Option (Pool n F U) :=
  if s.stage i = .returned ∧ (s.futures i).returns.any (fun r => r.waiter = 0) = true then
    some (s.setStage i .destroyed)
  else none

/-! ## Workers -/

def popStep (s : Pool n F U) (w : Fin n) (a : PopAction) : Option (Pool n F U) :=
  if s.worker w = .popping then
    match a with
    | .pop => (s.workQueue.popStep w).map fun workQueue => { s with workQueue := workQueue }
    | .return => (s.workQueue.returnStep w).map fun returned =>
        { s with workQueue := returned.2 }.moveWorker w (.fetched returned.1)
    | .spurious => (s.workQueue.spuriousStep w).map fun workQueue =>
        { s with workQueue := workQueue }
  else none

/-- The promise that the callback at the place of a walk would destroy. -/
def cleanupAt (s : Pool n F U) (future : Addr) (call : Nat) : Option Addr :=
  match (s.futures future).call call with
  | .walking (some callback) =>
      match (s.futures future).records callback with
      | some { callbackFn := some .cleanupExecute, args := args, .. } => args
      | _ => none
  | _ => none

/-- `closure->fn (closure->args)`. -/
def callStep (s : Pool n F U) (w : Fin n) : Option (Pool n F U) :=
  match s.worker w with
  | .fetched c => (s.closures c).map fun closure =>
      moveWorker { s with calls := s.calls ++ [⟨c, closure.fn, closure.args⟩] } w (.running c)
  | _ => none

def retStep (s : Pool n F U) (w : Fin n) (value : Ptr) : Option (Pool n F U) :=
  match s.worker w with
  | .running c => some (moveWorker { s with results := s.results ++ [(c, value)] } w (.ran c value))
  | _ => none

/-- `promise_fulfill (closure->promise, value)` up to `future_set_value`. -/
def fulfillStep (s : Pool n F U) (w : Fin n) : Option (Pool n F U) :=
  match s.worker w with
  | .ran c value => (s.closures c).bind fun closure =>
      (s.promises closure.promise).map fun promise =>
        s.moveWorker w (.fulfilling c promise.future value)
  | _ => none

/-- The critical section of `future_set_value`, its mutex free. -/
def settleStep (s : Pool n F U) (w : Fin n) : Option (Pool n F U) :=
  match s.worker w with
  | .fulfilling c f value => (s.futureStep f (.settle (.fulfill value))).map fun t =>
      t.moveWorker w (.settling c f (s.futures f).outcomes.length)
  | _ => none

/-- A step of `future_execute_callbacks`; running `cleanup_execute` destroys the
promise it was registered with. -/
def walkStep (s : Pool n F U) (w : Fin n) (step : WalkStep) : Option (Pool n F U) :=
  match s.worker w with
  | .settling c f k => (s.futureStep f (.walk k step)).map fun t =>
      match step with
      | .execute => { t with destroyedPromises := s.destroyedPromises ++ (s.cleanupAt f k).toList }
      | .finish => t.moveWorker w (.releasing c)
      | _ => t
  | _ => none

/-- `free (closure)`. -/
def freeStep (s : Pool n F U) (w : Fin n) : Option (Pool n F U) :=
  match s.worker w with
  | .releasing c =>
      if (s.closures c).isSome then
        some (moveWorker { s with closures := s.closures.free c } w .popping)
      else none
  | _ => none

def workStep (s : Pool n F U) (w : Fin n) : WorkAction → Option (Pool n F U)
  | .call => s.callStep w
  | .ret value => s.retStep w value
  | .fulfill => s.fulfillStep w
  | .settle => s.settleStep w
  | .walk step => s.walkStep w step
  | .free => s.freeStep w

/-! ## Teardown -/

def isTerminated (s : Pool n F U) (w : Fin n) : Bool :=
  match s.worker w with
  | .terminated _ => true
  | _ => false

/-- `future_pool_destroy`, with `executor_destroy` inlined. -/
def destroyStep (s : Pool n F U) : DestroyAction → Option (Pool n F U)
  | .destroy =>
      if s.destroyer = .idle then some { s with destroyer := .walking s.executors } else none
  | .next =>
      match s.destroyer with
      | .walking (some e) => (s.records e).map fun executor =>
          { s with destroyer := .cancelling e executor.next }
      | _ => none
  | .cancel =>
      match s.destroyer with
      | .cancelling e next => (s.records e).bind fun executor => executor.thread.map fun w =>
          { s with
            cancelRequested := Function.update s.cancelRequested w true
            destroyer := .joining e next }
      | _ => none
  | .join =>
      match s.destroyer with
      | .joining e next => (s.records e).bind fun executor => executor.thread.bind fun w =>
          if s.isTerminated w then
            some { s with records := s.records.free e, destroyer := .walking next }
          else none
      | _ => none
  | .queueDestroy =>
      if s.destroyer = .walking none then
        -- the loop of `queue_destroy` has no turn, or goes wrong in its first
        (queueDestroy 1 s.workQueue.queue).map fun outcome =>
          { s with destroyer := .ofQueue outcome }
      else none

/-- The worker is gone. -/
def endWorker (s : Pool n F U) (w : Fin n) (ending : Ending) : Pool n F U :=
  { s.moveWorker w (.terminated ending) with ended := s.ended ++ [w] }

/-- A callback of a caller is running in a walk. -/
def inUserCallback (s : Pool n F U) (future : Addr) (call : Nat) : Bool :=
  match (s.futures future).call call with
  | .executing callback =>
      match (s.futures future).records callback with
      | some { callbackFn := some (.user _), .. } => true
      | _ => false
  | _ => false

/-- Acting on a cancellation request at a cancellation point. -/
def cancelledStep (s : Pool n F U) (w : Fin n) (a : CancelAction n) : Option (Pool n F U) :=
  if s.cancelRequested w then
    match a, s.worker w with
    | .wait heir, .popping => (s.workQueue.cancelStep w heir).map fun workQueue =>
        { s with workQueue := workQueue }.endWorker w
          (.waiting (decide (s.workQueue.phase w ≠ Phase.asleep)))
    | .task, .running c => some (s.endWorker w (.task c))
    | .callback, .settling c f k =>
        if s.inUserCallback f k then some (s.endWorker w (.callback c)) else none
    | _, _ => none
  else none

def act (s : Pool n F U) : PoolAction n F U → Option (Pool n F U)
  | .execute fn args => s.executeStep fn args
  | .enqueue i item wake => s.enqueueStep i item wake
  | .addCleanup i link => s.addCleanupStep i link
  | .client i a => s.clientStep i a
  | .destroyFuture i => s.destroyFutureStep i
  | .pop w a => s.popStep w a
  | .work w a => s.workStep w a
  | .destroy a => s.destroyStep a
  | .cancelled w a => s.cancelledStep w a

/-- Nothing runs in a process that has aborted. -/
def step (s : Pool n F U) (a : PoolAction n F U) : Option (Pool n F U) :=
  if s.aborted then none else s.act a

def machine (n : Nat) (F : Type u) (U : Type v) : Machine (Pool n F U) (PoolAction n F U) where
  start := start n F U
  step := step

/-! ## Whole calls, for concrete runs -/

/-- One undisturbed `future_pool_execute`, the `i`-th, with nobody to wake. -/
def executeCall (i : Addr) (fn : F) (args : Ptr) : List (PoolAction n F U) :=
  [.execute fn args, .enqueue i i none, .addCleanup i 0]

/-- One turn of the loop of `executor_thread`, up to `free (closure)`. -/
def executorTurn (w : Fin n) (value : Ptr) (callbacks : Nat) : List (PoolAction n F U) :=
  [.pop w .pop, .pop w .return, .work w .call, .work w (.ret value), .work w .fulfill,
    .work w .settle, .work w (.walk .assertResolved), .work w (.walk .load)] ++
  (List.replicate callbacks [.work w (.walk .execute), .work w (.walk .next)]).flatten ++
  [.work w (.walk .finish), .work w .free]

/-! ## What a step can do -/

/-- `s.Takes a t`: action `a` leads from `s` to `t`, with what it finds in `s`. -/
inductive Takes (s : Pool n F U) : PoolAction n F U → Pool n F U → Prop
  | execute {fn : F} {args : Ptr} :
      Takes s (.execute fn args) (setStage { s with
        closures := s.closures.put s.submissions.length
          { promise := s.submissions.length, fn := fn, args := args }
        promises := s.promises.put s.submissions.length { future := s.submissions.length }
        submissions := s.submissions ++ [(fn, args)] } s.submissions.length .created)
  | enqueue {i item : Addr} {wake : Option (Fin n)} {workQueue : WorkQueue (Fin n) Addr}
      (created : s.stage i = .created)
      (taken : s.workQueue.enqueueStep item i wake = some workQueue) :
      Takes s (.enqueue i item wake) ({ s with workQueue := workQueue }.setStage i .enqueued)
  | addCleanup {i link : Addr} {future : SharedFuture (CallbackFn U)}
      (enqueued : s.stage i = .enqueued)
      (taken : (s.futures i).step (.addCallback link (some .cleanupExecute) (some i)) =
        some future) :
      Takes s (.addCleanup i link) (setStage { s with
        futures := Function.update s.futures i future, aborted := future.aborted } i .returned)
  | client {i : Addr} {a : ClientAction U} {future : SharedFuture (CallbackFn U)}
      (returned : s.stage i = .returned) (taken : (s.futures i).step a.onFuture = some future) :
      Takes s (.client i a) { s with
        futures := Function.update s.futures i future, aborted := future.aborted }
  | destroyFuture {i : Addr} (returned : s.stage i = .returned)
      (waited : ∃ r ∈ (s.futures i).returns, r.waiter = 0) :
      Takes s (.destroyFuture i) (s.setStage i .destroyed)
  | pop {w : Fin n} {workQueue : WorkQueue (Fin n) Addr} (popping : s.worker w = .popping)
      (taken : s.workQueue.popStep w = some workQueue) :
      Takes s (.pop w .pop) { s with workQueue := workQueue }
  | return {w : Fin n} {c : Addr} {workQueue : WorkQueue (Fin n) Addr}
      (popping : s.worker w = .popping)
      (taken : s.workQueue.returnStep w = some (c, workQueue)) :
      Takes s (.pop w .return) ({ s with workQueue := workQueue }.moveWorker w (.fetched c))
  | spurious {w : Fin n} {workQueue : WorkQueue (Fin n) Addr} (popping : s.worker w = .popping)
      (taken : s.workQueue.spuriousStep w = some workQueue) :
      Takes s (.pop w .spurious) { s with workQueue := workQueue }
  | call {w : Fin n} {c : Addr} {closure : Closure F} (place : s.worker w = .fetched c)
      (present : s.closures c = some closure) :
      Takes s (.work w .call) (moveWorker { s with
        calls := s.calls ++ [⟨c, closure.fn, closure.args⟩] } w (.running c))
  | ret {w : Fin n} {c : Addr} {value : Ptr} (place : s.worker w = .running c) :
      Takes s (.work w (.ret value)) (moveWorker { s with
        results := s.results ++ [(c, value)] } w (.ran c value))
  | fulfill {w : Fin n} {c : Addr} {value : Ptr} {closure : Closure F} {promise : Promise}
      (place : s.worker w = .ran c value) (present : s.closures c = some closure)
      (linked : s.promises closure.promise = some promise) :
      Takes s (.work w .fulfill) (s.moveWorker w (.fulfilling c promise.future value))
  | settle {w : Fin n} {c f : Addr} {value : Ptr} {future : SharedFuture (CallbackFn U)}
      (place : s.worker w = .fulfilling c f value)
      (taken : (s.futures f).step (.settle (.fulfill value)) = some future) :
      Takes s (.work w .settle) (moveWorker { s with
        futures := Function.update s.futures f future
        aborted := future.aborted } w (.settling c f (s.futures f).outcomes.length))
  | walk {w : Fin n} {step : WalkStep} {c f : Addr} {k : Nat}
      {future : SharedFuture (CallbackFn U)} (place : s.worker w = .settling c f k)
      (taken : (s.futures f).step (.walk k step) = some future) :
      Takes s (.work w (.walk step)) { s with
        futures := Function.update s.futures f future
        aborted := future.aborted
        worker := if step = .finish then Function.update s.worker w (.releasing c) else s.worker
        destroyedPromises := if step = .execute then
          s.destroyedPromises ++ (s.cleanupAt f k).toList else s.destroyedPromises }
  | free {w : Fin n} {c : Addr} (place : s.worker w = .releasing c)
      (present : (s.closures c).isSome = true) :
      Takes s (.work w .free) (moveWorker { s with closures := s.closures.free c } w .popping)
  | destroy (idle : s.destroyer = .idle) :
      Takes s (.destroy .destroy) { s with destroyer := .walking s.executors }
  | next {e : Addr} {executor : Executor n} (place : s.destroyer = .walking (some e))
      (present : s.records e = some executor) :
      Takes s (.destroy .next) { s with destroyer := .cancelling e executor.next }
  | cancel {e : Addr} {next : Ptr} {executor : Executor n} {w : Fin n}
      (place : s.destroyer = .cancelling e next) (present : s.records e = some executor)
      (thread : executor.thread = some w) :
      Takes s (.destroy .cancel) { s with
        cancelRequested := Function.update s.cancelRequested w true
        destroyer := .joining e next }
  | join {e : Addr} {next : Ptr} {executor : Executor n} {w : Fin n}
      (place : s.destroyer = .joining e next) (present : s.records e = some executor)
      (thread : executor.thread = some w) (gone : s.isTerminated w = true) :
      Takes s (.destroy .join) { s with
        records := s.records.free e, destroyer := .walking next }
  | queueDestroy {outcome : DestroyEnd Addr} (place : s.destroyer = .walking none)
      (ended : queueDestroy 1 s.workQueue.queue = some outcome) :
      Takes s (.destroy .queueDestroy) { s with destroyer := .ofQueue outcome }
  | cancelledWait {w : Fin n} {heir : Option (Fin n)} {workQueue : WorkQueue (Fin n) Addr}
      (requested : s.cancelRequested w = true) (popping : s.worker w = .popping)
      (taken : s.workQueue.cancelStep w heir = some workQueue) :
      Takes s (.cancelled w (.wait heir)) ({ s with workQueue := workQueue }.endWorker w
        (.waiting (decide (s.workQueue.phase w ≠ Phase.asleep))))
  | cancelledTask {w : Fin n} {c : Addr} (requested : s.cancelRequested w = true)
      (place : s.worker w = .running c) :
      Takes s (.cancelled w .task) (s.endWorker w (.task c))
  | cancelledCallback {w : Fin n} {c f : Addr} {k : Nat}
      (requested : s.cancelRequested w = true) (place : s.worker w = .settling c f k)
      (inside : s.inUserCallback f k = true) :
      Takes s (.cancelled w .callback) (s.endWorker w (.callback c))

variable {s t : Pool n F U} {i : Addr} {w : Fin n}

theorem futureStep_cases {a : FutureAction (CallbackFn U)} (stepped : s.futureStep i a = some t) :
    ∃ future, (s.futures i).step a = some future ∧
      t = { s with
            futures := Function.update s.futures i future, aborted := future.aborted } := by
  simp only [futureStep, Option.map_eq_some_iff] at stepped
  obtain ⟨future, taken, rfl⟩ := stepped
  exact ⟨future, taken, rfl⟩

theorem executeStep_takes {fn : F} {args : Ptr} (stepped : s.executeStep fn args = some t) :
    s.Takes (.execute fn args) t := by
  simp only [executeStep, Option.ite_none_left_eq_some, Option.some.injEq] at stepped
  obtain ⟨-, rfl⟩ := stepped
  exact .execute

theorem enqueueStep_takes {item : Addr} {wake : Option (Fin n)}
    (stepped : s.enqueueStep i item wake = some t) : s.Takes (.enqueue i item wake) t := by
  simp only [enqueueStep, Option.ite_none_right_eq_some, Option.map_eq_some_iff] at stepped
  obtain ⟨⟨created, -⟩, workQueue, taken, rfl⟩ := stepped
  exact .enqueue created taken

theorem addCleanupStep_takes {link : Addr} (stepped : s.addCleanupStep i link = some t) :
    s.Takes (.addCleanup i link) t := by
  simp only [addCleanupStep, Option.ite_none_right_eq_some, Option.map_eq_some_iff] at stepped
  obtain ⟨enqueued, u, added, rfl⟩ := stepped
  obtain ⟨future, taken, rfl⟩ := futureStep_cases added
  exact .addCleanup enqueued taken

theorem clientStep_takes {a : ClientAction U} (stepped : s.clientStep i a = some t) :
    s.Takes (.client i a) t := by
  simp only [clientStep, Option.ite_none_right_eq_some] at stepped
  obtain ⟨returned, stepped⟩ := stepped
  obtain ⟨future, taken, rfl⟩ := futureStep_cases stepped
  exact .client returned taken

theorem destroyFutureStep_takes (stepped : s.destroyFutureStep i = some t) :
    s.Takes (.destroyFuture i) t := by
  simp only [destroyFutureStep, List.any_eq_true, decide_eq_true_eq,
    Option.ite_none_right_eq_some, Option.some.injEq] at stepped
  obtain ⟨⟨returned, waited⟩, rfl⟩ := stepped
  exact .destroyFuture returned waited

theorem popStep_takes {a : PopAction} (stepped : s.popStep w a = some t) :
    s.Takes (.pop w a) t := by
  simp only [popStep, Option.ite_none_right_eq_some] at stepped
  obtain ⟨popping, stepped⟩ := stepped
  cases a with
  | pop =>
      obtain ⟨workQueue, taken, rfl⟩ := Option.map_eq_some_iff.1 stepped
      exact .pop popping taken
  | «return» =>
      obtain ⟨⟨c, workQueue⟩, taken, rfl⟩ := Option.map_eq_some_iff.1 stepped
      exact .return popping taken
  | spurious =>
      obtain ⟨workQueue, taken, rfl⟩ := Option.map_eq_some_iff.1 stepped
      exact .spurious popping taken

theorem callStep_takes (stepped : s.callStep w = some t) : s.Takes (.work w .call) t := by
  unfold callStep at stepped
  split at stepped
  · rename_i c place
    obtain ⟨closure, present, rfl⟩ := Option.map_eq_some_iff.1 stepped
    exact .call place present
  · cases stepped

theorem retStep_takes {value : Ptr} (stepped : s.retStep w value = some t) :
    s.Takes (.work w (.ret value)) t := by
  unfold retStep at stepped
  split at stepped
  · rename_i c place
    cases stepped
    exact .ret place
  · cases stepped

theorem fulfillStep_takes (stepped : s.fulfillStep w = some t) : s.Takes (.work w .fulfill) t := by
  unfold fulfillStep at stepped
  split at stepped
  · rename_i c value place
    obtain ⟨closure, present, stepped⟩ := Option.bind_eq_some_iff.1 stepped
    obtain ⟨promise, linked, rfl⟩ := Option.map_eq_some_iff.1 stepped
    exact .fulfill place present linked
  · cases stepped

theorem settleStep_takes (stepped : s.settleStep w = some t) : s.Takes (.work w .settle) t := by
  unfold settleStep at stepped
  split at stepped
  · rename_i c f value place
    obtain ⟨u, settled, rfl⟩ := Option.map_eq_some_iff.1 stepped
    obtain ⟨future, taken, rfl⟩ := futureStep_cases settled
    exact .settle place taken
  · cases stepped

theorem walkStep_takes {step : WalkStep} (stepped : s.walkStep w step = some t) :
    s.Takes (.work w (.walk step)) t := by
  unfold walkStep at stepped
  split at stepped
  · rename_i c f k place
    obtain ⟨u, walked, rfl⟩ := Option.map_eq_some_iff.1 stepped
    obtain ⟨future, taken, rfl⟩ := futureStep_cases walked
    cases step <;> exact .walk place taken
  · cases stepped

theorem freeStep_takes (stepped : s.freeStep w = some t) : s.Takes (.work w .free) t := by
  unfold freeStep at stepped
  split at stepped
  · rename_i c place
    simp only [Option.ite_none_right_eq_some, Option.some.injEq] at stepped
    obtain ⟨present, rfl⟩ := stepped
    exact .free place present
  · cases stepped

theorem workStep_takes {a : WorkAction} (stepped : s.workStep w a = some t) :
    s.Takes (.work w a) t := by
  cases a with
  | call => exact callStep_takes stepped
  | ret value => exact retStep_takes stepped
  | fulfill => exact fulfillStep_takes stepped
  | settle => exact settleStep_takes stepped
  | walk step => exact walkStep_takes stepped
  | free => exact freeStep_takes stepped

theorem destroyStep_takes {a : DestroyAction} (stepped : s.destroyStep a = some t) :
    s.Takes (.destroy a) t := by
  cases a with
  | destroy =>
      simp only [destroyStep, Option.ite_none_right_eq_some, Option.some.injEq] at stepped
      obtain ⟨idle, rfl⟩ := stepped
      exact .destroy idle
  | next =>
      simp only [destroyStep] at stepped
      split at stepped
      · rename_i e place
        obtain ⟨executor, present, rfl⟩ := Option.map_eq_some_iff.1 stepped
        exact .next place present
      · cases stepped
  | cancel =>
      simp only [destroyStep] at stepped
      split at stepped
      · rename_i e next place
        obtain ⟨executor, present, stepped⟩ := Option.bind_eq_some_iff.1 stepped
        obtain ⟨w, thread, rfl⟩ := Option.map_eq_some_iff.1 stepped
        exact .cancel place present thread
      · cases stepped
  | join =>
      simp only [destroyStep] at stepped
      split at stepped
      · rename_i e next place
        obtain ⟨executor, present, stepped⟩ := Option.bind_eq_some_iff.1 stepped
        obtain ⟨w, thread, stepped⟩ := Option.bind_eq_some_iff.1 stepped
        simp only [Option.ite_none_right_eq_some, Option.some.injEq] at stepped
        obtain ⟨gone, rfl⟩ := stepped
        exact .join place present thread gone
      · cases stepped
  | queueDestroy =>
      simp only [destroyStep, Option.ite_none_right_eq_some, Option.map_eq_some_iff] at stepped
      obtain ⟨place, outcome, ended, rfl⟩ := stepped
      exact .queueDestroy place ended

theorem cancelledStep_takes {a : CancelAction n} (stepped : s.cancelledStep w a = some t) :
    s.Takes (.cancelled w a) t := by
  simp only [cancelledStep, Option.ite_none_right_eq_some] at stepped
  obtain ⟨requested, stepped⟩ := stepped
  split at stepped
  · rename_i heir popping
    obtain ⟨workQueue, taken, rfl⟩ := Option.map_eq_some_iff.1 stepped
    exact .cancelledWait requested popping taken
  · rename_i c place
    cases stepped
    exact .cancelledTask requested place
  · rename_i c f k place
    simp only [Option.ite_none_right_eq_some, Option.some.injEq] at stepped
    obtain ⟨inside, rfl⟩ := stepped
    exact .cancelledCallback requested place inside
  · cases stepped

/-- Every step of the machine is one of these. -/
theorem step_takes {a : PoolAction n F U} (stepped : s.step a = some t) : s.Takes a t := by
  obtain ⟨-, acted⟩ := Option.ite_none_left_eq_some.1 stepped
  cases a with
  | execute fn args => exact executeStep_takes acted
  | enqueue i item wake => exact enqueueStep_takes acted
  | addCleanup i link => exact addCleanupStep_takes acted
  | client i a => exact clientStep_takes acted
  | destroyFuture i => exact destroyFutureStep_takes acted
  | pop w a => exact popStep_takes acted
  | work w a => exact workStep_takes acted
  | destroy a => exact destroyStep_takes acted
  | cancelled w a => exact cancelledStep_takes acted

end Pool

end Cfutures
