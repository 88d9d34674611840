/-
# Pool.Tasks -- what a pool is, to those who submit tasks

Executors, closures, promises, futures, the item list and the condition variables come to
this: tasks, numbered in the order of their submission; a queue of numbers, that of
`Queue.Lossy`; and `n` slots, each idle, with a task it has taken, running it, or gone.

    submit    tasks ++ [task]
    put i     task i into the queue, once
    take w    slot w idle -> the first task of the queue
    call w    its function is called with its argument
    finish w  its result is there; slot w idle again
    quit w    slot w gone, with the task it was running if it was; the last slots go first

`simulates_tasks`: what every run of the pool does, seen through these actions, the task
pool does, and then the calls it has made are the calls of the code and its results what
`future_get` reads (`refines_tasks`).  Cancelled workers and every stage of the teardown
included.
-/
import Cfutures.Queue.Lossy
import Cfutures.Pool.Results
import Cfutures.Pool.Dismissal
import Cfutures.Future.Assertions

namespace Cfutures

open Cfutures.Theory

set_option autoImplicit false

universe u v

/-- What a worker is doing. -/
inductive Slot where
  | idle
  | taken (task : Nat)
  | running (task : Nat)
  | gone
  deriving DecidableEq

structure TaskPool (n : Nat) (F : Type u) where
  tasks : List (F × Ptr)
  put : List Nat
  queue : LossyQueue Nat
  slot : Fin n → Slot
  calls : List (F × Ptr)
  result : Nat → Option Ptr

inductive TaskAction (n : Nat) (F : Type u) where
  | submit (fn : F) (args : Ptr)
  | put (task : Nat)
  | take (w : Fin n)
  | call (w : Fin n)
  | finish (w : Fin n) (value : Ptr)
  | quit (w : Fin n)
  deriving DecidableEq

namespace TaskPool

variable {n : Nat} {F : Type u}

def start (n : Nat) (F : Type u) : TaskPool n F where
  tasks := []
  put := []
  queue := (LossyQueue.machine Nat).start
  slot := fun _ => .idle
  calls := []
  result := fun _ => none

def moveSlot (m : TaskPool n F) (w : Fin n) (slot : Slot) : TaskPool n F :=
  { m with slot := Function.update m.slot w slot }

def putStep (m : TaskPool n F) (i : Nat) : Option (TaskPool n F) :=
  if i < m.tasks.length ∧ i ∉ m.put then
    some { m with put := m.put ++ [i], queue := m.queue.put i }
  else none

def takeStep (m : TaskPool n F) (w : Fin n) : Option (TaskPool n F) :=
  if m.slot w = .idle then
    m.queue.pending.head?.bind fun i =>
      m.queue.take.map fun queue => { m with queue := queue }.moveSlot w (.taken i)
  else none

def callStep (m : TaskPool n F) (w : Fin n) : Option (TaskPool n F) :=
  match m.slot w with
  | .taken i => m.tasks[i]?.map fun task =>
      { m with calls := m.calls ++ [task] }.moveSlot w (.running i)
  | _ => none

def finishStep (m : TaskPool n F) (w : Fin n) (value : Ptr) : Option (TaskPool n F) :=
  match m.slot w with
  | .running i => some ({ m with
      result := Function.update m.result i (some value) }.moveSlot w .idle)
  | _ => none

/-- Between taking a task and calling its function nobody quits. -/
def quitStep (m : TaskPool n F) (w : Fin n) : Option (TaskPool n F) :=
  if ∀ v, w < v → m.slot v = .gone then
    match m.slot w with
    | .idle | .running _ => some (m.moveSlot w .gone)
    | _ => none
  else none

def step (m : TaskPool n F) : TaskAction n F → Option (TaskPool n F)
  | .submit fn args => some { m with tasks := m.tasks ++ [(fn, args)] }
  | .put i => m.putStep i
  | .take w => m.takeStep w
  | .call w => m.callStep w
  | .finish w value => m.finishStep w value
  | .quit w => m.quitStep w

def machine (n : Nat) (F : Type u) : Machine (TaskPool n F) (TaskAction n F) where
  start := start n F
  step := step

variable {m : TaskPool n F} {w : Fin n} {i : Nat}

theorem takeStep_eq (idle : m.slot w = .idle) {rest : List Nat} {queue : LossyQueue Nat}
    (first : m.queue.pending = i :: rest) (took : m.queue.take = some queue) :
    m.takeStep w = some ({ m with queue := queue }.moveSlot w (.taken i)) := by
  simp [takeStep, idle, first, took]

theorem callStep_eq (taken : m.slot w = .taken i) {task : F × Ptr}
    (submitted : m.tasks[i]? = some task) :
    m.callStep w = some ({ m with calls := m.calls ++ [task] }.moveSlot w (.running i)) := by
  simp [callStep, taken, submitted]

theorem finishStep_eq (running : m.slot w = .running i) (value : Ptr) :
    m.finishStep w value = some ({ m with
      result := Function.update m.result i (some value) }.moveSlot w .idle) := by
  simp [finishStep, running]

theorem quitStep_eq (last : ∀ v, w < v → m.slot v = .gone)
    (notTaken : m.slot w = .idle ∨ ∃ i, m.slot w = .running i) :
    m.quitStep w = some (m.moveSlot w .gone) := by
  rw [quitStep, if_pos last]
  rcases notTaken with idle | ⟨i, running⟩
  · rw [idle]
  · rw [running]

end TaskPool

/-- The slot of a worker, from where it is; `last` is the closure delivered to it last. -/
def Worker.slot (phase : Phase) (last : Option Addr) : Worker → Slot
  | .popping =>
      match phase with
      | .holding _ => last.elim .idle .taken
      | _ => .idle
  | .fetched c => .taken c
  | .running c | .ran c _ | .fulfilling c _ _ => .running c
  | .settling .. | .releasing _ => .idle
  | .terminated _ => .gone

namespace Pool

variable {n : Nat} {F : Type u} {U : Type v} {s t : Pool n F U} {i c : Addr} {w : Fin n}
variable {m : TaskPool n F} {past : List (Pool n F U × PoolAction n F U)}

def slot (s : Pool n F U) (w : Fin n) : Slot :=
  (s.worker w).slot (s.workQueue.phase w) ((s.workQueue.lastTo w).map Delivery.value)

/-- The calls made: function and argument. -/
def called (s : Pool n F U) : List (F × Ptr) := s.calls.map fun x => (x.fn, x.args)

/-- What a step is to the task pool. -/
def taskAction (s : Pool n F U) : PoolAction n F U → Option (TaskAction n F)
  | .execute fn args => some (.submit fn args)
  | .enqueue i _ _ => some (.put i)
  | .pop w .pop => if s.workQueue.queue.head.isSome then some (.take w) else none
  | .work w .call => some (.call w)
  | .work w .settle =>
      match s.worker w with
      | .fulfilling _ _ value => some (.finish w value)
      | _ => none
  | .cancelled w _ => some (.quit w)
  | _ => none

/-- The task pool that a pool stands for. -/
structure Represents (s : Pool n F U) (m : TaskPool n F) : Prop where
  tasks : m.tasks = s.submissions
  put : m.put = s.workQueue.enqueued
  queue : s.workQueue.Represents m.queue
  slot : ∀ w, m.slot w = s.slot w
  calls : m.calls = s.called
  result : ∀ i, m.result i = lastFulfilled (s.futures i).outcomes

theorem start_represents : (start n F U).Represents (TaskPool.start n F) where
  tasks := rfl
  put := rfl
  queue := WorkQueue.start_represents
  slot _ := rfl
  calls := rfl
  result _ := rfl

/-! ## Steps -/

/-- Steps that the task pool does not see. -/
theorem Represents.of_same (represents : s.Represents m)
    (submissions : t.submissions = s.submissions)
    (enqueued : t.workQueue.enqueued = s.workQueue.enqueued)
    (queue : t.workQueue.Represents m.queue) (slot : ∀ w, t.slot w = s.slot w)
    (calls : t.calls = s.calls) (outcomes : ∀ i, (t.futures i).outcomes = (s.futures i).outcomes) :
    t.Represents m where
  tasks := represents.tasks.trans submissions.symm
  put := represents.put.trans enqueued.symm
  queue := queue
  slot w := (represents.slot w).trans (slot w).symm
  calls := by rw [represents.calls, called, called, calls]
  result i := by rw [represents.result, outcomes]

/-- A signal changes nobody's slot. -/
theorem slot_of_woken {phase phase' : Phase} {last : Option Addr} {place : Worker}
    (moved : phase' = phase ∨ (phase = .asleep ∧ phase' = .woken true)) :
    place.slot phase' last = place.slot phase last := by
  rcases moved with rfl | ⟨rfl, rfl⟩
  · rfl
  · cases place <;> rfl

/-- A worker moves where it has the same slot. -/
theorem slot_of_move {place : Worker} (workQueue : t.workQueue = s.workQueue)
    (worker : t.worker = Function.update s.worker w place)
    (same : place.slot (s.workQueue.phase w) ((s.workQueue.lastTo w).map Delivery.value) =
      s.slot w) (v : Fin n) : t.slot v = s.slot v := by
  rw [Pool.slot, workQueue, worker]
  by_cases here : v = w
  · subst here
    rw [Function.update_self]
    exact same
  · rw [Function.update_of_ne here]
    rfl

/-- A worker moves where it has another slot. -/
theorem Represents.moveSlot (represents : s.Represents m) {place : Worker} {new : Slot}
    (workQueue : t.workQueue = s.workQueue) (worker : t.worker = Function.update s.worker w place)
    (moved : place.slot (s.workQueue.phase w) ((s.workQueue.lastTo w).map Delivery.value) = new)
    (v : Fin n) : Function.update m.slot w new v = t.slot v := by
  rw [Pool.slot, workQueue, worker]
  by_cases here : v = w
  · subst here
    rw [Function.update_self, Function.update_self, moved]
  · rw [Function.update_of_ne here, Function.update_of_ne here]
    exact represents.slot v

theorem Represents.submit (represents : s.Represents m) {fn : F} {args : Ptr}
    (taken : s.Takes (.execute fn args) t) :
    t.Represents { m with tasks := m.tasks ++ [(fn, args)] } := by
  cases taken
  exact ⟨by rw [represents.tasks]; rfl, represents.put, represents.queue, represents.slot,
    represents.calls, represents.result⟩

theorem Represents.putStep (represents : s.Represents m) (wired : s.Wired) {item : Addr}
    {wake : Option (Fin n)} (taken : s.Takes (.enqueue i item wake) t) :
    ∃ m', m.putStep i = some m' ∧ t.Represents m' := by
  cases taken with
  | @enqueue _ _ _ workQueue created taken =>
      have born : i < m.tasks.length := by
        rw [represents.tasks]
        exact (wired.born i).1 (by simp [created])
      have new : i ∉ m.put := by
        rw [represents.put, wired.queued, created]
        nofun
      refine ⟨_, if_pos ⟨born, new⟩, represents.tasks, ?_, represents.queue.enqueueStep taken, ?_,
        represents.calls, represents.result⟩
      · obtain ⟨-, queue, phase, -, -, rfl⟩ := WorkQueue.enqueueStep_cases taken
        rw [represents.put]
        rfl
      · intro w
        obtain ⟨-, queue, phase, -, signalled, rfl⟩ := WorkQueue.enqueueStep_cases taken
        rw [represents.slot]
        exact (slot_of_woken (condSignal_apply signalled w)).symm

theorem Represents.takeStep (represents : s.Represents m) (popping : s.worker w = .popping)
    {workQueue : WorkQueue (Fin n) Addr} (taken : s.workQueue.popStep w = some workQueue) :
    (s.workQueue.queue.head = none ∧ Represents { s with workQueue := workQueue } m) ∨
      (s.workQueue.queue.head.isSome = true ∧
        ∃ m', m.takeStep w = some m' ∧ Represents { s with workQueue := workQueue } m') := by
  obtain ⟨testing, cases_⟩ := WorkQueue.popStep_cases taken
  have idle : s.slot w = .idle := by
    cases phase : s.workQueue.phase w <;> simp_all [Pool.slot, Worker.slot, Phase.testing]
  rcases represents.queue.popStep taken with ⟨empty, after⟩ | ⟨some_, queue, took, after⟩
  · left
    refine ⟨empty, ?_⟩
    obtain ⟨-, rfl⟩ | ⟨item, queue, record, unlinked, -, -⟩ := cases_
    · refine represents.of_same rfl rfl after ?_ rfl fun _ => rfl
      intro v
      by_cases here : v = w
      · subst here
        rw [idle]
        simp [Pool.slot, popping, Worker.slot]
      · simp [Pool.slot, here]
        rfl
    · simp [queuePopSection, empty] at unlinked
  · right
    refine ⟨some_, ?_⟩
    obtain ⟨empty, -⟩ | ⟨item, queue', record, -, -, rfl⟩ := cases_
    · simp [empty] at some_
    -- the lossy queue hands out what the pop delivers
    have first : m.queue.pending = record.value :: queue.pending := by
      have values := LossyQueue.take_values took
      obtain ⟨_, -, -, -, before⟩ := represents.queue
      obtain ⟨_, -, -, -, later⟩ := after
      rw [before, later] at values
      simpa using values.symm
    refine ⟨_, TaskPool.takeStep_eq ((represents.slot w).trans idle) first took,
      represents.tasks, represents.put, after, ?_, represents.calls, represents.result⟩
    intro v
    by_cases here : v = w
    · subst here
      simp [TaskPool.moveSlot, Pool.slot, popping, Worker.slot, WorkQueue.lastTo]
    · simp only [TaskPool.moveSlot, Function.update_of_ne here, represents.slot]
      simp [Pool.slot, here, WorkQueue.lastTo, Ne.symm here]

theorem Represents.fetched (represents : s.Represents m) (run : (machine n F U).Run past s)
    (popping : s.worker w = .popping) {workQueue : WorkQueue (Fin n) Addr}
    (taken : s.workQueue.returnStep w = some (c, workQueue)) :
    Represents ({ s with workQueue := workQueue }.moveWorker w (.fetched c)) m := by
  obtain ⟨l, sound⟩ := WorkQueue.run_sound (run_queue run)
  obtain ⟨enqueued, -, -, -, ⟨d, last, value⟩, -⟩ := sound.returnStep taken
  have queue := represents.queue.returnStep taken
  obtain ⟨item, record, holding, -, same⟩ := WorkQueue.returnStep_cases taken
  cases same
  refine represents.of_same rfl enqueued queue ?_ rfl fun _ => rfl
  intro v
  by_cases here : v = w
  · subst here
    simp [Pool.slot, moveWorker, popping, holding, last, Worker.slot,
      show d.value = record.value from value]
  · simp [Pool.slot, moveWorker, here]
    rfl

theorem Represents.callStep (represents : s.Represents m) (wired : s.Wired)
    {closure : Closure F} (place : s.worker w = .fetched c)
    (present : s.closures c = some closure) :
    ∃ m', m.callStep w = some m' ∧ Represents (moveWorker { s with
      calls := s.calls ++ [⟨c, closure.fn, closure.args⟩] } w (.running c)) m' := by
  have taken : m.slot w = .taken c := by
    rw [represents.slot, Pool.slot, place]
    rfl
  have task : m.tasks[c]? = some (closure.fn, closure.args) := by
    rw [represents.tasks]
    exact (wired.closure c closure present).2
  refine ⟨_, TaskPool.callStep_eq taken task, represents.tasks, represents.put,
    represents.queue, represents.moveSlot rfl rfl rfl, ?_, represents.result⟩
  simp [TaskPool.moveSlot, represents.calls, called, moveWorker]

theorem Represents.finishStep (represents : s.Represents m) (ledger : s.Ledger) {f : Addr}
    {value : Ptr} {future : SharedFuture (CallbackFn U)}
    (place : s.worker w = .fulfilling c f value)
    (taken : (s.futures f).step (.settle (.fulfill value)) = some future) :
    ∃ m', m.finishStep w value = some m' ∧ Represents (moveWorker { s with
      futures := Function.update s.futures f future
      aborted := future.aborted } w (.settling c f (s.futures f).outcomes.length)) m' := by
  obtain rfl := SharedFuture.step_settle taken
  obtain rfl : f = c := by
    obtain ⟨task, -, expects⟩ := ledger.fits w c (by rw [place]; rfl)
    rw [place] at expects
    exact expects.1
  have running : m.slot w = .running f := by
    rw [represents.slot, Pool.slot, place]
    rfl
  refine ⟨_, TaskPool.finishStep_eq running value, represents.tasks, represents.put,
    represents.queue, represents.moveSlot rfl rfl rfl, represents.calls, ?_⟩
  intro i
  by_cases same : i = f
  · subst same
    simp [TaskPool.moveSlot, moveWorker, SharedFuture.settleStep, lastFulfilled_concat,
      Outcome.value]
  · simp [TaskPool.moveSlot, moveWorker, same, represents.result]

/-- Whoever has been asked to end is the last worker there. -/
theorem Represents.last (represents : s.Represents m) (inTurn : s.InTurn)
    (requested : s.cancelRequested w = true) (v : Fin n) (above : w < v) : m.slot v = .gone := by
  have gone := inTurn.later w requested v above
  rw [represents.slot, Pool.slot]
  cases place : s.worker v <;> simp_all [isTerminated, Worker.slot]

theorem Represents.quitStep (represents : s.Represents m) (inTurn : s.InTurn)
    {a : CancelAction n} (taken : s.Takes (.cancelled w a) t) :
    ∃ m', m.quitStep w = some m' ∧ t.Represents m' := by
  cases taken with
  | @cancelledWait _ heir workQueue requested popping taken =>
      obtain ⟨queue, delivered, -, notHolding, others⟩ := WorkQueue.cancelStep_phase taken
      have idle : m.slot w = .idle := by
        rw [represents.slot]
        cases phase : s.workQueue.phase w with
        | holding item => exact absurd phase (notHolding item)
        | _ => simp [Pool.slot, popping, phase, Worker.slot]
      refine ⟨_, TaskPool.quitStep_eq (represents.last inTurn requested) (Or.inl idle),
        represents.tasks, ?_, ?_, ?_, represents.calls, represents.result⟩
      · obtain ⟨-, phase, -, rfl⟩ | ⟨-, -, rfl⟩ := WorkQueue.cancelStep_cases taken <;>
          exact represents.put
      · obtain ⟨past', q, moves, related⟩ := WorkQueue.simulates_lossy.steps represents.queue
          (Machine.Steps.single (M := WorkQueue.machine (Fin n) Addr) (a := .cancel w heir) taken)
        cases moves
        exact related
      · intro v
        by_cases here : v = w
        · subst here
          simp [TaskPool.moveSlot, Pool.slot, endWorker, moveWorker, Worker.slot]
        · rw [TaskPool.moveSlot]
          simp only [Function.update_of_ne here, represents.slot]
          have lastTo : workQueue.lastTo v = s.workQueue.lastTo v := by
            rw [WorkQueue.lastTo, WorkQueue.lastTo, delivered]
          simp only [Pool.slot, endWorker, moveWorker, Function.update_of_ne here, lastTo]
          exact (slot_of_woken (others v here)).symm
  | @cancelledTask _ c requested place =>
      have running : m.slot w = .running c := by
        rw [represents.slot, Pool.slot, place]
        rfl
      exact ⟨_, TaskPool.quitStep_eq (represents.last inTurn requested) (Or.inr ⟨c, running⟩),
        represents.tasks, represents.put, represents.queue, represents.moveSlot rfl rfl rfl,
        represents.calls, represents.result⟩
  | @cancelledCallback _ c f k requested place =>
      have idle : m.slot w = .idle := by
        rw [represents.slot, Pool.slot, place]
        rfl
      exact ⟨_, TaskPool.quitStep_eq (represents.last inTurn requested) (Or.inl idle),
        represents.tasks, represents.put, represents.queue, represents.moveSlot rfl rfl rfl,
        represents.calls, represents.result⟩

/-- Every step of the pool is one of the task pool, or unseen. -/
theorem Represents.step (represents : s.Represents m) (run : (machine n F U).Run past s)
    {a : PoolAction n F U} (stepped : s.step a = some t) :
    ∃ m', (TaskPool.machine n F).Moves m (s.taskAction a) m' ∧ t.Represents m' := by
  have ledger := run_ledger run
  have wired := run_wired run
  have seen : ∀ b : TaskAction n F, (∃ m', m.step b = some m' ∧ t.Represents m') →
      s.taskAction a = some b →
      ∃ m', (TaskPool.machine n F).Moves m (s.taskAction a) m' ∧ t.Represents m' := by
    rintro b ⟨m', stepped, after⟩ named
    exact ⟨m', by rw [named]; exact stepped, after⟩
  have unseen : t.Represents m → s.taskAction a = none →
      ∃ m', (TaskPool.machine n F).Moves m (s.taskAction a) m' ∧ t.Represents m' :=
    fun after named => ⟨m, by rw [named]; rfl, after⟩
  have taken := step_takes stepped
  cases taken with
  | execute => exact seen (.submit _ _) ⟨_, rfl, represents.submit (step_takes stepped)⟩ rfl
  | enqueue => exact seen (.put _) (represents.putStep wired (step_takes stepped)) rfl
  | addCleanup _ taken =>
      exact unseen (represents.of_same rfl rfl represents.queue (fun _ => rfl) rfl
        (update_outcomes taken (by simp))) rfl
  | @client _ a _ _ taken =>
      exact unseen (represents.of_same rfl rfl represents.queue (fun _ => rfl) rfl
        (update_outcomes taken (by cases a <;> simp [ClientAction.onFuture]))) rfl
  | pop popping taken =>
      rcases represents.takeStep popping taken with ⟨empty, after⟩ | ⟨some_, took⟩
      · exact unseen after (by simp [taskAction, empty])
      · exact seen (.take _) took (by rw [taskAction, if_pos some_])
  | «return» popping taken => exact unseen (represents.fetched run popping taken) rfl
  | @spurious w _ popping taken =>
      obtain ⟨asleep, rfl⟩ := WorkQueue.spuriousStep_cases taken
      refine unseen (represents.of_same rfl rfl ?_ ?_ rfl fun _ => rfl) rfl
      · exact represents.queue.of_phase fun _ _ => WorkQueue.holding_of_update (by simp)
      · intro v
        by_cases here : v = w
        · subst here
          simp [Pool.slot, popping, asleep, Worker.slot]
        · simp [Pool.slot, here]
          rfl
  | call place present => exact seen (.call _) (represents.callStep wired place present) rfl
  | ret place =>
      exact unseen (represents.of_same rfl rfl represents.queue
        (slot_of_move rfl rfl (by rw [Pool.slot, place]; rfl)) rfl fun _ => rfl) rfl
  | fulfill place =>
      exact unseen (represents.of_same rfl rfl represents.queue
        (slot_of_move rfl rfl (by rw [Pool.slot, place]; rfl)) rfl fun _ => rfl) rfl
  | settle place taken =>
      exact seen (.finish _ _) (represents.finishStep ledger place taken)
        (by simp [taskAction, place])
  | @walk w step c f k future place taken =>
      refine unseen (represents.of_same rfl rfl represents.queue ?_ rfl
        (update_outcomes taken (by simp))) rfl
      by_cases last : step = .finish
      · exact slot_of_move rfl (if_pos last) (by rw [Pool.slot, place]; rfl)
      · intro v
        simp only [Pool.slot, last, if_false]
  | @free w c place =>
      refine unseen (represents.of_same rfl rfl represents.queue
        (slot_of_move rfl rfl ?_) rfl fun _ => rfl) rfl
      have outside : s.workQueue.phase w = .outside := by
        have inPhase := ledger.phase w
        rwa [place] at inPhase
      rw [Pool.slot, place, outside]
      rfl
  | cancelledWait | cancelledTask | cancelledCallback =>
      exact seen (.quit _) (represents.quitStep (run_inTurn run) (step_takes stepped)) rfl
  | _ =>
      exact unseen (represents.of_same rfl rfl represents.queue (fun _ => rfl) rfl fun _ => rfl) rfl

theorem simulates_tasks : Machine.Simulates (machine n F U) (TaskPool.machine n F) taskAction
    fun s m => (∃ past, (machine n F U).Run past s) ∧ s.Represents m where
  start := ⟨⟨[], .none⟩, start_represents⟩
  step := by
    rintro s m a t ⟨⟨past, run⟩, represents⟩ stepped
    obtain ⟨m', moves, after⟩ := represents.step run stepped
    exact ⟨m', moves, ⟨_, run.step stepped⟩, after⟩

/-- **The pool refines the task pool**: in every run, teardown and cancelled workers
included, the submissions, enqueues, pops, calls, settlings and ends of workers are steps
the task pool can take in that order, and after them it has made the same calls and its
results are what `future_get` reads. -/
theorem refines_tasks (run : (machine n F U).Run past s) :
    ∃ past' m, (TaskPool.machine n F).exec (Machine.observed taskAction past) = some (past', m) ∧
      m.calls = s.called ∧ ∀ i, m.result i = futureGet (s.futures i).future := by
  obtain ⟨past', m, done, -, represents⟩ := simulates_tasks.run run
  refine ⟨past', m, done, represents.calls, ?_⟩
  intro i
  rw [(SharedFuture.run_showsLatest (run_future run i)).get]
  exact represents.result i

end Pool

end Cfutures
