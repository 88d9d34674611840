/-
# Selftest.Pool -- the self test of the pool

`future_pool_test` is the library used as its README says: make a pool, submit tasks, get
their results, destroy the futures and the pool.  The machine here is that program with
its pool, in any interleaving; tasks and their number are a parameter (`TestPlan`), the
source's are `futurePoolTest`.

* `run_inOrder`: how far the calls of the test have come, and what that says of the pool;
* `never_failed`: every assertion of the test holds, whatever the interleaving;
* `test_ends`: apart from spurious wake-ups the program does not go on for ever;
* `completes_iff`: where it ends it is through exactly if no closure was enqueued on a
  list adrift and no future was destroyed under a worker; otherwise it waits for ever in a
  `future_get` whose task the queue has lost, or the worker has used the destroyed future;
* `two_tasks_complete`: with two tasks, as in the source, only the latter can happen.
-/
import Cfutures.Pool.Assertions
import Cfutures.Pool.Progress
import Cfutures.Pool.Rest
import Cfutures.Future.Cancellation
import Cfutures.Future.Getting

namespace Cfutures

open Cfutures.Theory

set_option autoImplicit false

universe u v

/-- What a test of the pool submits, what its task functions return, and what it asserts
that `future_get` returns. -/
structure TestPlan (F : Type u) where
  tasks : List (F × Ptr)
  compute : F → Ptr → Ptr
  wanted : List Ptr
  fits : wanted = tasks.map fun task => compute task.1 task.2

/-- `future_pool_test` and the pool it makes. -/
structure PoolTest (n : Nat) (F : Type u) where
  pool : Pool n F Empty
  /-- Calls of `future_pool_execute` that have returned. -/
  executed : Nat
  /-- Assertions on `future_get` that have held. -/
  got : Nat
  /-- Futures destroyed. -/
  destroyed : Nat
  /-- An assertion of the test has failed. -/
  failed : Bool
  /-- A worker has used a future that the test had destroyed. -/
  undefined : Bool

/-- The steps of the test's thread, waiter 0 of every future, and those of the pool. -/
inductive PoolTestAction (n : Nat) (F : Type u) where
  | execute
  | enqueue (item : Addr) (wake : Option (Fin n))
  | addCleanup (link : Addr)
  | wait
  | check
  | spurious
  | get
  | destroyFuture
  | destroyPool
  | inside (a : PoolAction n F Empty)

namespace PoolTest

variable {n : Nat} {F : Type u}

/-- `future_pool_new (n)`. -/
def start (n : Nat) (F : Type u) : PoolTest n F where
  pool := Pool.start n F Empty
  executed := 0
  got := 0
  destroyed := 0
  failed := false
  undefined := false

/-- The pool's own steps.  A task function returns what it computes. -/
def allowed (plan : TestPlan F) (s : PoolTest n F) : PoolAction n F Empty → Bool
  | .pop .. | .cancelled .. => true
  | .work w (.ret value) =>
      match s.pool.worker w with
      | .running c => decide (((s.pool.callsOf c).getLast?.map fun task =>
          plan.compute task.1 task.2) = some value)
      | _ => false
  | .work .. => true
  | .destroy .destroy => false
  | .destroy _ => true
  | _ => false

/-- The step of the pool that a step of the test is.  The calls are made one after the
other: all of `future_pool_execute`, all of `future_get`, all of `future_destroy`, and
`future_pool_destroy`. -/
def poolAction (plan : TestPlan F) (s : PoolTest n F) :
    PoolTestAction n F → Option (PoolAction n F Empty)
  | .execute =>
      if s.pool.submissions.length = s.executed then
        plan.tasks[s.executed]?.map fun task => .execute task.1 task.2
      else none
  | .enqueue item wake => some (.enqueue s.executed item wake)
  | .addCleanup link => some (.addCleanup s.executed link)
  | .wait =>
      if s.executed = plan.tasks.length ∧ s.got < plan.tasks.length then
        some (.client s.got (.wait 0 true))
      else none
  | .check => some (.client s.got (.check 0))
  | .spurious => some (.client s.got (.spurious 0))
  | .get => some (.client s.got (.get 0))
  | .destroyFuture =>
      if s.got = plan.tasks.length ∧ s.destroyed < plan.tasks.length then
        some (.destroyFuture s.destroyed)
      else none
  | .destroyPool =>
      if s.got = plan.tasks.length ∧ s.destroyed = plan.tasks.length then
        some (.destroy .destroy)
      else none
  | .inside a => if s.allowed plan a then some a else none

/-- What the latest `future_get` on future `i` has returned. -/
def gotten (pool : Pool n F Empty) (i : Addr) : Option Ptr :=
  (pool.futures i).returns.getLast?.bind WaitReturn.value

/-- The test after a step, with the pool after it. -/
def after (plan : TestPlan F) (s : PoolTest n F) (pool : Pool n F Empty) :
    PoolTestAction n F → PoolTest n F
  | .addCleanup _ => { s with pool := pool, executed := s.executed + 1 }
  | .get =>
      -- assert (future_get (future) == wanted)
      if gotten pool s.got = plan.wanted[s.got]? then { s with pool := pool, got := s.got + 1 }
      else { s with pool := pool, failed := true }
  | .destroyFuture => { s with pool := pool, destroyed := s.destroyed + 1 }
  | _ => { s with pool := pool }

/-- Nothing is said of what follows a use of a destroyed future. -/
def step (plan : TestPlan F) (s : PoolTest n F) (a : PoolTestAction n F) : Option (PoolTest n F) :=
  if s.failed || s.undefined then none
  else (s.poolAction plan a).bind fun b => (s.pool.step b).map fun pool =>
    { s.after plan pool a with undefined := s.pool.touchesLate b }

def machine (plan : TestPlan F) (n : Nat) : Machine (PoolTest n F) (PoolTestAction n F) where
  start := start n F
  step := step plan

/-- The test has printed its OK: `future_pool_destroy` has returned. -/
def Completed (s : PoolTest n F) : Prop :=
  s.failed = false ∧ s.undefined = false ∧ s.pool.destroyer = .done

instance (s : PoolTest n F) : Decidable s.Completed :=
  inferInstanceAs (Decidable (_ ∧ _ ∧ _))

/-- A step that is not a wake-up out of nothing. -/
def own : PoolTestAction n F → Bool
  | .spurious | .inside (.pop _ .spurious) => false
  | _ => true

/-- The step enqueues a closure while `head` is set and `tail` is NULL. -/
def severs (plan : TestPlan F) (s : PoolTest n F) (a : PoolTestAction n F) : Bool :=
  (s.poolAction plan a).any s.pool.severs

/-- The step does not destroy a future that a worker is still reading. -/
def inTime (plan : TestPlan F) (s : PoolTest n F) (a : PoolTestAction n F) : Bool :=
  (s.poolAction plan a).all s.pool.destroysInTime

end PoolTest

/-! ## The test of the source -/

/-- `test_args_t`, with a product that is an `int` and not negative. -/
structure TestArgs where
  a : Nat
  b : Nat
  fits : a * b < 2 ^ 31

inductive TestFn where
  | testFutureFn

/-- `args1` and `args2` of `future_pool_test`. -/
def testArgs : Store Addr TestArgs :=
  (Store.empty.put 1 { a := 5, b := 3, fits := by decide }).put 2
    { a := 10, b := 2, fits := by decide }

/-- `(void *) result`: zero is NULL. -/
def ptrOfLong (result : Nat) : Ptr := if result = 0 then none else some result

def testFutureFn (args : Ptr) : Ptr :=
  (args.bind testArgs).bind fun record => ptrOfLong (record.a * record.b)

def futurePoolTest : TestPlan TestFn where
  tasks := [(.testFutureFn, some 1), (.testFutureFn, some 2)]
  compute := fun _ => testFutureFn
  wanted := [some 15, some 20]
  fits := by decide

/-! ## What is not the test's doing -/

namespace WorkQueue

variable {C : Type u} {α : Type v} [Fintype C] [DecidableEq C] {s : WorkQueue C α}
variable {past : List (WorkQueue C α × QueueAction C α)}

/-- A list is adrift only after a pop that has left one item of two. -/
theorem enqueued_of_severs (run : (machine C α).Run past s) {a : QueueAction C α}
    (severs : s.severs a = true) : 2 ≤ s.enqueued.length := by
  obtain ⟨past', m, done, l, sound, -, adrift, taken⟩ := simulates_lossy.run run
  obtain ⟨lossyRun, -⟩ := Machine.exec_iff.1 done
  have some_ : m.adrift = true → m.taken ≠ [] := by
    refine Machine.Run.invariant (I := fun m : LossyQueue α => m.adrift = true → m.taken ≠ [])
      (by simp [LossyQueue.machine]) ?_ lossyRun
    intro m b m' before stepped
    cases b with
    | put value =>
        cases stepped
        unfold LossyQueue.put
        split
        · exact before
        · exact before
    | take =>
        simp only [LossyQueue.machine, LossyQueue.step, LossyQueue.take] at stepped
        split at stepped <;> cases stepped
        simp
  have account := sound.account
  cases a with
  | enqueue item value wake =>
      simp only [WorkQueue.severs, Bool.and_eq_true, Option.isNone_iff_eq_none] at severs
      obtain ⟨busy, noTail⟩ := severs
      have left : l ≠ [] :=
        (Chain.ne_nil_iff sound.shaped.holds).2 (Option.isSome_iff_ne_none.1 busy)
      have notAnchored : ¬ s.queue.Anchored l := by
        obtain ⟨m, last, rfl⟩ := (List.eq_nil_or_concat l).resolve_left left
        simp [Queue.Anchored, noTail]
      have delivered := some_ (adrift.2 (sound.shaped.adrift_iff.2 notAnchored))
      rw [taken] at delivered
      have first : s.delivered.length ≠ 0 := fun none_ => delivered (by
        rw [List.length_eq_zero_iff.1 none_]
        rfl)
      have second := List.length_pos_of_ne_nil left
      omega
  | _ => cases severs

end WorkQueue

namespace Pool

variable {n : Nat} {F : Type u} {U : Type v} {s t : Pool n F U}

/-- What no step of the pool's own changes. -/
structure Inside (s t : Pool n F U) : Prop where
  stage : t.stage = s.stage
  submissions : t.submissions = s.submissions
  teardown : t.destroyer = .idle ↔ s.destroyer = .idle
  futures : ∀ i, (s.futures i).Undisturbed (t.futures i)

/-- A step of one future that is no waiter's, seen at any of them. -/
theorem undisturbed_of_update {f : Addr} {future : SharedFuture (CallbackFn U)}
    {a : FutureAction (CallbackFn U)} (apart : a.isWait = false)
    (taken : (s.futures f).step a = some future) (i : Addr) :
    (s.futures i).Undisturbed (Function.update s.futures f future i) := by
  by_cases same : i = f
  · subst same
    rw [Function.update_self]
    exact SharedFuture.undisturbed_of_step apart taken
  · rw [Function.update_of_ne same]
    exact .refl _

/-- What a step adds to the record of calls and results. -/
theorem step_record {a : PoolAction n F U} (stepped : s.step a = some t) :
    (t.results = s.results ∧ ∃ new, t.calls = s.calls ++ new) ∨
      ∃ w c value, a = .work w (.ret value) ∧ s.worker w = .running c ∧ t.calls = s.calls ∧
        t.results = s.results ++ [(c, value)] := by
  cases step_takes stepped with
  | call place present => exact Or.inl ⟨rfl, _, rfl⟩
  | ret place => exact Or.inr ⟨_, _, _, rfl, place, rfl, rfl⟩
  | _ => exact Or.inl ⟨rfl, [], (List.append_nil _).symm⟩

theorem mem_callsOf_append {new : List (Call F)} (calls : t.calls = s.calls ++ new) {c : Addr}
    {task : F × Ptr} (called : task ∈ s.callsOf c) : task ∈ t.callsOf c := by
  rw [callsOf, calls, List.filter_append, List.map_append]
  exact List.mem_append_left _ called

end Pool

namespace PoolTest

variable {n : Nat} {F : Type u} {plan : TestPlan F} {s t : PoolTest n F} {i : Addr}
variable {past more : List (PoolTest n F × PoolTestAction n F)}

/-! ## What a step can do -/

theorem step_cases {a : PoolTestAction n F} (stepped : step plan s a = some t) :
    s.failed = false ∧ s.undefined = false ∧ ∃ b pool, s.poolAction plan a = some b ∧
      s.pool.step b = some pool ∧
      t = { s.after plan pool a with undefined := s.pool.touchesLate b } := by
  simp only [step, Option.ite_none_left_eq_some, Bool.not_eq_true, Bool.or_eq_false_iff,
    Option.bind_eq_some_iff, Option.map_eq_some_iff] at stepped
  obtain ⟨⟨going, defined⟩, b, named, pool, taken, rfl⟩ := stepped
  exact ⟨going, defined, b, pool, named, taken, rfl⟩

@[simp]
theorem after_pool (pool : Pool n F Empty) (a : PoolTestAction n F) :
    (s.after plan pool a).pool = pool := by
  cases a <;> simp only [after]
  split <;> rfl

theorem projects : Machine.Projects (machine plan n) (Pool.machine n F Empty) PoolTest.pool
    (poolAction plan) := by
  intro s a t stepped
  obtain ⟨-, -, b, pool, named, taken, rfl⟩ := step_cases stepped
  rw [named]
  change s.pool.step b = some _
  rw [taken, after_pool]

/-- The run of the pool in a run of the test. -/
def poolPast (plan : TestPlan F) (past : List (PoolTest n F × PoolTestAction n F)) :
    List (Pool n F Empty × PoolAction n F Empty) :=
  Machine.projectPast PoolTest.pool (poolAction plan) past

theorem run_pool (run : (machine plan n).Run past s) :
    (Pool.machine n F Empty).Run (poolPast plan past) s.pool :=
  Machine.Run.project (π := PoolTest.pool) rfl projects run

/-- What is true of the steps of the pool in a run of the test. -/
theorem forall_poolPast {p : Pool n F Empty → PoolAction n F Empty → Prop} :
    (∀ e ∈ poolPast plan past, p e.1 e.2) ↔
      ∀ e ∈ past, ∀ b, e.1.poolAction plan e.2 = some b → p e.1.pool b := by
  constructor
  · intro whole e recorded b named
    exact whole (e.1.pool, b) ((Machine.mem_projectPast ..).2 ⟨e, recorded, named, rfl⟩)
  · intro whole e recorded
    obtain ⟨d, member, named, here⟩ := (Machine.mem_projectPast ..).1 recorded
    rw [← here]
    exact whole d member e.2 named

theorem severs_poolPast :
    (∀ e ∈ poolPast plan past, e.1.severs e.2 = false) ↔
      ∀ e ∈ past, e.1.severs plan e.2 = false := by
  rw [forall_poolPast (p := fun s a => s.severs a = false)]
  simp [severs, Option.any_eq_false]

theorem inTime_poolPast :
    (∀ e ∈ poolPast plan past, e.1.destroysInTime e.2 = true) ↔
      ∀ e ∈ past, e.1.inTime plan e.2 = true := by
  rw [forall_poolPast (p := fun s a => s.destroysInTime a = true)]
  simp [inTime, Option.all_eq_true]

/-- The test goes on as long as no worker has used a destroyed future. -/
theorem run_undefined (run : (machine plan n).Run past s) :
    s.undefined = false ↔ Pool.NoLateTouch (poolPast plan past) := by
  rw [Pool.noLateTouch_iff, forall_poolPast (p := fun s a => s.touchesLate a = false)]
  induction run with
  | none => simp [machine, start]
  | @step past s a t before stepped ih =>
      obtain ⟨-, defined, b, pool, named, taken, rfl⟩ := step_cases stepped
      have earlier := ih.1 defined
      constructor
      · intro now e recorded c named'
        rcases List.mem_append.1 recorded with member | last
        · exact earlier e member c named'
        · rw [List.mem_singleton] at last
          subst last
          rw [named, Option.some.injEq] at named'
          exact named' ▸ now
      · intro whole
        exact whole (s, a) (by simp) b named

/-- A step of the pool's own is a worker's, a cancelled one's or one of the teardown. -/
theorem inside_of_allowed {a : PoolAction n F Empty} (allowed : s.allowed plan a = true)
    {pool : Pool n F Empty} (stepped : s.pool.step a = some pool) : s.pool.Inside pool := by
  cases Pool.step_takes stepped with
  | execute | enqueue | addCleanup | client | destroyFuture | destroy => cases allowed
  | settle place taken | walk place taken =>
      exact ⟨rfl, rfl, Iff.rfl, fun i => Pool.undisturbed_of_update rfl taken i⟩
  | next place | cancel place | join place =>
      exact ⟨rfl, rfl, by simp [place], fun _ => .refl _⟩
  | @queueDestroy outcome place =>
      exact ⟨rfl, rfl, by cases outcome <;> simp [place, Destroyer.ofQueue], fun _ => .refl _⟩
  | _ => exact ⟨rfl, rfl, Iff.rfl, fun _ => .refl _⟩

/-! ## How far the calls have come -/

structure InOrder (plan : TestPlan F) (s : PoolTest n F) : Prop where
  submitted : s.pool.submissions = plan.tasks.take s.pool.submissions.length
  current : s.pool.submissions.length = s.executed ∨
    (s.pool.submissions.length = s.executed + 1 ∧
      (s.pool.stage s.executed = .created ∨ s.pool.stage s.executed = .enqueued))
  got_le : s.got ≤ plan.tasks.length
  destroyed_le : s.destroyed ≤ plan.tasks.length
  executedFirst : 0 < s.got → s.executed = plan.tasks.length
  gotFirst : 0 < s.destroyed → s.got = plan.tasks.length
  returned : ∀ i < s.executed,
    s.pool.stage i = if i < s.destroyed then .destroyed else .returned
  waited : ∀ i < s.got, ∃ r ∈ (s.pool.futures i).returns, r.waiter = 0
  outside : ∀ i, i ≠ s.got → (s.pool.futures i).waiter 0 = .outside
  asking : (s.pool.futures s.got).waiter 0 ≠ .outside →
    s.executed = plan.tasks.length ∧ s.got < plan.tasks.length
  gets : ∀ i get, (s.pool.futures i).waiter 0 = .checking get ∨
    (s.pool.futures i).waiter 0 = .asleep get → get = true
  teardown : s.pool.destroyer ≠ .idle →
    s.got = plan.tasks.length ∧ s.destroyed = plan.tasks.length
  results : ∀ r ∈ s.pool.results, ∃ task ∈ s.pool.callsOf r.1, r.2 = plan.compute task.1 task.2

theorem start_inOrder : InOrder plan (start n F) where
  submitted := rfl
  current := Or.inl rfl
  got_le := Nat.zero_le _
  destroyed_le := Nat.zero_le _
  executedFirst some_ := absurd some_ (Nat.lt_irrefl _)
  gotFirst some_ := absurd some_ (Nat.lt_irrefl _)
  returned i early := absurd early (Nat.not_lt_zero _)
  waited i early := absurd early (Nat.not_lt_zero _)
  outside _ _ := rfl
  asking asks := absurd rfl asks
  gets i get here := by rcases here with here | here <;> cases here
  teardown busy := absurd rfl busy
  results r member := by cases member

/-- The results of a step are those its tasks compute. -/
theorem InOrder.results_step (inOrder : InOrder plan s) {a : PoolTestAction n F}
    {b : PoolAction n F Empty} {pool : Pool n F Empty} (named : s.poolAction plan a = some b)
    (taken : s.pool.step b = some pool) :
    ∀ r ∈ pool.results, ∃ task ∈ pool.callsOf r.1, r.2 = plan.compute task.1 task.2 := by
  intro r member
  rcases Pool.step_record taken with ⟨results, new, calls⟩ |
    ⟨w, c, value, rfl, running, calls, results⟩
  · rw [results] at member
    obtain ⟨task, called, value⟩ := inOrder.results r member
    exact ⟨task, Pool.mem_callsOf_append calls called, value⟩
  · have onward : ∀ {c task}, task ∈ s.pool.callsOf c → task ∈ pool.callsOf c := fun called =>
      Pool.mem_callsOf_append (calls.trans (List.append_nil _).symm) called
    rw [results] at member
    rcases List.mem_append.1 member with earlier | last
    · obtain ⟨task, called, value⟩ := inOrder.results r earlier
      exact ⟨task, onward called, value⟩
    · rw [List.mem_singleton] at last
      subst last
      -- only `inside` takes a worker's step, and it lets it return what it computes
      have allowed : s.allowed plan (.work w (.ret value)) = true := by
        cases a <;> simp only [poolAction, Option.ite_none_right_eq_some, Option.some.injEq,
          Option.map_eq_some_iff, reduceCtorEq, and_false, exists_false] at named
        rw [← named.2]
        exact named.1
      simp only [PoolTest.allowed, running, decide_eq_true_eq, Option.map_eq_some_iff] at allowed
      obtain ⟨task, last, computed⟩ := allowed
      exact ⟨task, onward (List.mem_of_getLast? last), computed.symm⟩

/-- A step that the test does not take itself. -/
theorem InOrder.inside (inOrder : InOrder plan s) {a : PoolAction n F Empty}
    (allowed : s.allowed plan a = true) {pool : Pool n F Empty}
    (taken : s.pool.step a = some pool) : InOrder plan { s with pool := pool } := by
  have inside := inside_of_allowed allowed taken
  have results := inOrder.results_step (a := .inside a) (if_pos allowed) taken
  refine { inOrder with
    submitted := ?_, current := ?_, returned := ?_, waited := ?_, outside := ?_, asking := ?_,
    gets := ?_, teardown := ?_, results := results }
  · rw [inside.submissions]
    exact inOrder.submitted
  · rw [inside.submissions, inside.stage]
    exact inOrder.current
  · rw [inside.stage]
    exact inOrder.returned
  · intro i early
    rw [(inside.futures i).1]
    exact inOrder.waited i early
  · intro i ne
    exact (inside.futures i).outside (inOrder.outside i ne)
  · intro asks
    exact inOrder.asking fun out => asks ((inside.futures s.got).outside out)
  · intro i
    exact (inside.futures i).getting (inOrder.gets i)
  · intro busy
    exact inOrder.teardown fun idle => busy (inside.teardown.2 idle)

theorem InOrder.submissions_le (inOrder : InOrder plan s) :
    s.pool.submissions.length ≤ plan.tasks.length := by
  rw [inOrder.submitted, List.length_take]
  exact Nat.min_le_right _ _

/-- While a call of `future_pool_execute` is under way nothing later has begun. -/
theorem InOrder.executing (inOrder : InOrder plan s) (wired : s.pool.Wired)
    (under : s.pool.stage s.executed = .created ∨ s.pool.stage s.executed = .enqueued) :
    s.pool.submissions.length = s.executed + 1 ∧ s.executed < plan.tasks.length ∧ s.got = 0 ∧
      s.destroyed = 0 := by
  have born : s.executed < s.pool.submissions.length :=
    (wired.born s.executed).1 (by rcases under with here | here <;> simp [here])
  have within := inOrder.submissions_le
  have length : s.pool.submissions.length = s.executed + 1 := by
    rcases inOrder.current with same | ⟨more, -⟩
    · omega
    · exact more
  have notYet : s.got = 0 := by
    by_contra some_
    have all := inOrder.executedFirst (Nat.pos_of_ne_zero some_)
    omega
  refine ⟨length, by omega, notYet, ?_⟩
  by_contra some_
  have all := inOrder.gotFirst (Nat.pos_of_ne_zero some_)
  omega

theorem InOrder.execute (inOrder : InOrder plan s) {b : PoolAction n F Empty}
    {pool : Pool n F Empty} (named : s.poolAction plan .execute = some b)
    (taken : s.pool.step b = some pool) : InOrder plan { s with pool := pool } := by
  have results := inOrder.results_step named taken
  simp only [poolAction, Option.ite_none_right_eq_some, Option.map_eq_some_iff] at named
  obtain ⟨next, task, listed, rfl⟩ := named
  cases Pool.step_takes taken with
  | execute =>
      refine { inOrder with
        submitted := ?_, current := Or.inr ⟨?_, Or.inl ?_⟩, returned := ?_, results := results }
      · change s.pool.submissions ++ [task] =
          plan.tasks.take (s.pool.submissions ++ [task]).length
        rw [List.length_append, List.length_singleton, List.take_add_one, ← inOrder.submitted,
          next, listed]
        rfl
      · simp [Pool.setStage, next]
      · simp [Pool.setStage, next]
      · intro i early
        have ne : i ≠ s.executed := Nat.ne_of_lt early
        simpa [Pool.setStage, next, ne] using inOrder.returned i early

theorem InOrder.enqueue (inOrder : InOrder plan s) (wired : s.pool.Wired) {item : Addr}
    {wake : Option (Fin n)} {pool : Pool n F Empty}
    (taken : s.pool.step (.enqueue s.executed item wake) = some pool) :
    InOrder plan { s with pool := pool } := by
  have results := inOrder.results_step (a := .enqueue item wake) rfl taken
  cases Pool.step_takes taken with
  | enqueue created linked =>
      obtain ⟨length, -⟩ := inOrder.executing wired (Or.inl created)
      refine { inOrder with
        current := Or.inr ⟨length, Or.inr ?_⟩, returned := ?_, results := results }
      · simp [Pool.setStage]
      · intro i early
        have ne : i ≠ s.executed := Nat.ne_of_lt early
        simpa [Pool.setStage, ne] using inOrder.returned i early

theorem InOrder.addCleanup (inOrder : InOrder plan s) (wired : s.pool.Wired) {link : Addr}
    {pool : Pool n F Empty} (taken : s.pool.step (.addCleanup s.executed link) = some pool) :
    InOrder plan { s with pool := pool, executed := s.executed + 1 } := by
  have results := inOrder.results_step (a := .addCleanup link) rfl taken
  cases Pool.step_takes taken with
  | addCleanup enqueued added =>
      obtain ⟨length, more, none_, none_'⟩ := inOrder.executing wired (Or.inr enqueued)
      have still := Pool.undisturbed_of_update rfl added
      refine { inOrder with
        current := Or.inl length, executedFirst := ?_, returned := ?_, waited := ?_,
        outside := ?_, asking := ?_, gets := ?_, results := results }
      · intro some_
        exact absurd none_ (Nat.ne_of_gt some_)
      · intro i early
        by_cases last : i = s.executed
        · subst last
          simp [Pool.setStage, none_']
        · have earlier : i < s.executed := by
            have early' : i < s.executed + 1 := early
            omega
          simpa [Pool.setStage, last] using inOrder.returned i earlier
      · intro i early
        have early' : i < s.got := early
        omega
      · intro i ne
        exact (still i).outside (inOrder.outside i ne)
      · intro asks
        have before := inOrder.asking fun out => asks ((still s.got).outside out)
        omega
      · intro i
        exact (still i).getting (inOrder.gets i)

/-- In a `future_get` of the test only its own future moves. -/
theorem InOrder.ask (inOrder : InOrder plan s) {future : SharedFuture (CallbackFn Empty)}
    {aborted failed : Bool} (turn : s.executed = plan.tasks.length ∧ s.got < plan.tasks.length)
    (gets : ∀ get, future.waiter 0 = .checking get ∨ future.waiter 0 = .asleep get → get = true) :
    InOrder plan { s with
      pool := { s.pool with
        futures := Function.update s.pool.futures s.got future, aborted := aborted }
      failed := failed } := by
  refine { inOrder with waited := ?_, outside := ?_, asking := fun _ => turn, gets := ?_ }
  · intro i early
    have ne : i ≠ s.got := Nat.ne_of_lt early
    simpa [ne] using inOrder.waited i early
  · intro i ne
    have ne' : i ≠ s.got := ne
    simpa [ne'] using inOrder.outside i ne
  · intro i
    by_cases same : i = s.got
    · subst same
      simpa using gets
    · simpa [same] using inOrder.gets i

/-- A `future_get` of the test has returned. -/
theorem InOrder.answered (inOrder : InOrder plan s) {future : SharedFuture (CallbackFn Empty)}
    {aborted : Bool} (turn : s.executed = plan.tasks.length ∧ s.got < plan.tasks.length)
    (out : future.waiter 0 = .outside) (waited : ∃ r ∈ future.returns, r.waiter = 0) :
    InOrder plan { s with
      pool := { s.pool with
        futures := Function.update s.pool.futures s.got future, aborted := aborted }
      got := s.got + 1 } := by
  have outside : ∀ i, (Function.update s.pool.futures s.got future i).waiter 0 = .outside := by
    intro i
    by_cases same : i = s.got
    · subst same
      simpa using out
    · simpa [same] using inOrder.outside i same
  refine { inOrder with
    got_le := turn.2, executedFirst := fun _ => turn.1, gotFirst := ?_, waited := ?_,
    outside := fun i _ => outside i, asking := fun asks => absurd (outside _) asks,
    gets := ?_, teardown := ?_ }
  · intro some_
    have all := inOrder.gotFirst some_
    omega
  · intro i early
    by_cases last : i = s.got
    · subst last
      simpa using waited
    · have early' : i < s.got + 1 := early
      have earlier : i < s.got := by omega
      simpa [last] using inOrder.waited i earlier
  · intro i get here
    rw [outside i] at here
    rcases here with here | here <;> cases here
  · intro busy
    have halted := inOrder.teardown busy
    omega

theorem InOrder.get (inOrder : InOrder plan s) {pool : Pool n F Empty}
    (taken : s.pool.step (.client s.got (.get 0)) = some pool) (alive : pool.aborted = false) :
    InOrder plan (s.after plan pool .get) := by
  cases Pool.step_takes taken with
  | client returned read =>
      obtain ⟨-, getting⟩ := Option.ite_none_left_eq_some.1 read
      obtain ⟨reading, ⟨-, rfl⟩ | ⟨value, -, rfl⟩⟩ := SharedFuture.getStep_cases getting
      · cases alive
      · have turn := inOrder.asking (by simp [reading])
        simp only [after]
        split
        · exact inOrder.answered turn (by simp) ⟨⟨0, some value⟩, by simp, rfl⟩
        · exact inOrder.ask turn (by simp)

theorem InOrder.destroyFuture (inOrder : InOrder plan s) {b : PoolAction n F Empty}
    {pool : Pool n F Empty} (named : s.poolAction plan .destroyFuture = some b)
    (taken : s.pool.step b = some pool) :
    InOrder plan { s with pool := pool, destroyed := s.destroyed + 1 } := by
  have results := inOrder.results_step named taken
  simp only [poolAction, Option.ite_none_right_eq_some, Option.some.injEq] at named
  obtain ⟨⟨all, more⟩, rfl⟩ := named
  cases Pool.step_takes taken with
  | destroyFuture returned waited =>
      have through : s.executed = plan.tasks.length := inOrder.executedFirst (by omega)
      refine { inOrder with
        current := ?_, destroyed_le := more, gotFirst := fun _ => all, returned := ?_,
        teardown := ?_, results := results }
      · have within := inOrder.submissions_le
        rcases inOrder.current with same | ⟨beyond, -⟩
        · exact Or.inl same
        · omega
      · intro i early
        by_cases here : i = s.destroyed
        · subst here
          simp [Pool.setStage]
        · have before := inOrder.returned i early
          have same : (i < s.destroyed + 1) = (i < s.destroyed) := by
            rw [eq_iff_iff]
            omega
          simpa [Pool.setStage, here, same] using before
      · intro busy
        have halted := inOrder.teardown busy
        omega

theorem InOrder.destroyPool (inOrder : InOrder plan s) {b : PoolAction n F Empty}
    {pool : Pool n F Empty} (named : s.poolAction plan .destroyPool = some b)
    (taken : s.pool.step b = some pool) : InOrder plan { s with pool := pool } := by
  simp only [poolAction, Option.ite_none_right_eq_some, Option.some.injEq] at named
  obtain ⟨all, rfl⟩ := named
  cases Pool.step_takes taken with
  | destroy idle => exact { inOrder with teardown := fun _ => all }

theorem InOrder.step (inOrder : InOrder plan s) (wired : s.pool.Wired) {a : PoolTestAction n F}
    (stepped : PoolTest.step plan s a = some t) (alive : t.pool.aborted = false) :
    InOrder plan t := by
  obtain ⟨-, -, b, pool, named, taken, rfl⟩ := step_cases stepped
  rw [after_pool] at alive
  suffices onward : InOrder plan (s.after plan pool a) from { onward with }
  cases a with
  | execute => exact inOrder.execute named taken
  | enqueue item wake =>
      cases named
      exact inOrder.enqueue wired taken
  | addCleanup link =>
      cases named
      exact inOrder.addCleanup wired taken
  | wait =>
      simp only [poolAction, Option.ite_none_right_eq_some, Option.some.injEq] at named
      obtain ⟨turn, rfl⟩ := named
      cases Pool.step_takes taken with
      | client returned waits =>
          obtain ⟨-, waits⟩ := Option.ite_none_left_eq_some.1 waits
          simp only [ClientAction.onFuture, SharedFuture.waitStep, Option.ite_none_right_eq_some,
            Option.some.injEq] at waits
          obtain ⟨-, rfl⟩ := waits
          exact inOrder.ask turn (by simp)
  | check =>
      cases named
      cases Pool.step_takes taken with
      | client returned checks =>
          obtain ⟨-, checks⟩ := Option.ite_none_left_eq_some.1 checks
          simp only [ClientAction.onFuture, SharedFuture.checkStep] at checks
          split at checks
          · rename_i get place
            obtain rfl := inOrder.gets s.got get (Or.inl place)
            have turn := inOrder.asking (by simp [place])
            split at checks
            · cases checks
              exact inOrder.ask turn (by simp)
            · cases checks
              exact inOrder.ask turn (by simp)
          · cases checks
  | spurious =>
      cases named
      cases Pool.step_takes taken with
      | client returned wakes =>
          obtain ⟨-, wakes⟩ := Option.ite_none_left_eq_some.1 wakes
          simp only [ClientAction.onFuture, SharedFuture.spuriousStep] at wakes
          split at wakes
          · rename_i get place
            obtain rfl := inOrder.gets s.got get (Or.inr place)
            cases wakes
            exact inOrder.ask (inOrder.asking (by simp [place])) (by simp)
          · cases wakes
  | get =>
      cases named
      exact inOrder.get taken alive
  | destroyFuture => exact inOrder.destroyFuture named taken
  | destroyPool => exact inOrder.destroyPool named taken
  | inside c =>
      simp only [poolAction, Option.ite_none_right_eq_some, Option.some.injEq] at named
      obtain ⟨allowed, rfl⟩ := named
      exact inOrder.inside allowed taken

/-- The test registers no callback of its own, so nothing can fail in a walk. -/
theorem pool_alive (run : (machine plan n).Run past s) : s.pool.aborted = false := by
  by_contra aborted
  obtain ⟨i, link, ⟨e, recorded, callbackFn, args, registers, -⟩, -⟩ :=
    Pool.registered_of_aborted (run_pool run) (eq_true_of_ne_false aborted)
  obtain ⟨d, -, named, -⟩ := (Machine.mem_projectPast ..).1 recorded
  rw [registers] at named
  cases action : d.2 with
  | inside c =>
      simp only [action, poolAction, Option.ite_none_right_eq_some, Option.some.injEq] at named
      obtain ⟨allowed, rfl⟩ := named
      cases allowed
  | _ => simp [action, poolAction] at named

theorem run_inOrder (run : (machine plan n).Run past s) : InOrder plan s := by
  induction run with
  | none => exact start_inOrder
  | @step past s a t before stepped ih =>
      exact ih.step (Pool.run_wired (run_pool before)) stepped (pool_alive (before.step stepped))

/-! ## Its assertions hold -/

/-- A resolved future holds what the test wants of it. -/
theorem value_wanted (run : (machine plan n).Run past s)
    (resolved : futureIsResolved (s.pool.futures i).future = true) :
    ∃ value, futureGet (s.pool.futures i).future = some value ∧ plan.wanted[i]? = some value := by
  have inPool := run_pool run
  obtain ⟨task, value, submitted, life⟩ :=
    (Pool.run_ledger inPool).settled_of_outcome ((Pool.resolved_iff inPool i).1 resolved)
  have calls : s.pool.callsOf i = [task] := congrArg Life.calls life
  have results : s.pool.resultsOf i = [value] := congrArg Life.results life
  refine ⟨value, (Pool.shown_of_settled inPool life).2.2.2, ?_⟩
  have member : (i, value) ∈ s.pool.results := by
    have listed : value ∈ s.pool.resultsOf i := by simp [results]
    obtain ⟨r, filtered, rfl⟩ := List.mem_map.1 listed
    obtain ⟨among, own⟩ := List.mem_filter.1 filtered
    rw [decide_eq_true_eq] at own
    rwa [← own]
  -- its task is the one that was submitted, and the result is what that task computes
  have inOrder := run_inOrder run
  rw [inOrder.submitted, List.getElem?_take] at submitted
  have listed : plan.tasks[i]? = some task := (Option.ite_none_right_eq_some.1 submitted).2
  have equal : value = plan.compute task.1 task.2 := by
    obtain ⟨called, among, computed⟩ := inOrder.results _ member
    obtain rfl : called = task := by simpa [calls] using among
    exact computed
  simp [plan.fits, listed, equal]

/-- **No assertion of the test fails**, whatever the interleaving. -/
theorem never_failed (run : (machine plan n).Run past s) : s.failed = false := by
  induction run with
  | none => rfl
  | @step past s a t before stepped ih =>
      have alive := pool_alive (before.step stepped)
      obtain ⟨going, -, b, pool, named, taken, rfl⟩ := step_cases stepped
      cases a with
      | get =>
          cases named
          rw [after_pool] at alive
          cases Pool.step_takes taken with
          | client returned read =>
              obtain ⟨-, getting⟩ := Option.ite_none_left_eq_some.1 read
              obtain ⟨reading, ⟨-, rfl⟩ | ⟨value, shown, rfl⟩⟩ :=
                SharedFuture.getStep_cases getting
              · cases alive
              · have resolved :=
                  (SharedFuture.run_waits (Pool.run_future (run_pool before) s.got)).reading 0
                    reading
                obtain ⟨value', shown', wanted⟩ := value_wanted before resolved
                obtain rfl : value' = value := by
                  rw [shown, Option.some.injEq] at shown'
                  exact shown'.symm
                simp only [after]
                rw [if_pos (by simp [gotten, wanted])]
                exact going
      | _ => exact going

/-! ## It ends -/

/-- What the test still has to do in a future_pool_execute. -/
def executeLeft : Stage → Nat
  | .unborn => 3
  | .created => 2
  | .enqueued => 1
  | .returned | .destroyed => 0

def executesLeft (plan : TestPlan F) (s : PoolTest n F) : Nat :=
  if s.executed < plan.tasks.length then
    3 * (plan.tasks.length - s.executed - 1) + executeLeft (s.pool.stage s.executed)
  else 0

def getsLeft (plan : TestPlan F) (s : PoolTest n F) : Nat :=
  if s.got < plan.tasks.length then
    4 * (plan.tasks.length - s.got - 1) +
      ((s.pool.futures s.got).waiter 0).left (s.pool.futures s.got).future.isResolved
  else 0

def destroysLeft (plan : TestPlan F) (s : PoolTest n F) : Nat :=
  (plan.tasks.length - s.destroyed) + if s.pool.destroyer = .idle then 1 else 0

/-- The steps that the thread of the test has to come. -/
def left (plan : TestPlan F) (s : PoolTest n F) : Nat :=
  executesLeft plan s + getsLeft plan s + destroysLeft plan s

theorem executeLeft_le (stage : Stage) : executeLeft stage ≤ 3 := by
  cases stage <;> simp [executeLeft]

theorem getsLeft_le (undisturbed : (s.pool.futures s.got).Undisturbed (t.pool.futures s.got))
    (same : t.got = s.got) : getsLeft plan t ≤ getsLeft plan s := by
  have still := undisturbed.left 0
  rw [getsLeft, getsLeft, same]
  split
  · exact Nat.add_le_add_left still _
  · exact Nat.le_refl 0

/-- A step of the pool's own. -/
theorem left_inside {pool : Pool n F Empty} (inside : s.pool.Inside pool) :
    left plan { s with pool := pool } ≤ left plan s := by
  have gets : getsLeft plan { s with pool := pool } ≤ getsLeft plan s :=
    getsLeft_le (inside.futures s.got) rfl
  have executes : executesLeft plan { s with pool := pool } = executesLeft plan s := by
    simp only [executesLeft, inside.stage]
  have destroys : destroysLeft plan { s with pool := pool } = destroysLeft plan s := by
    simp only [destroysLeft, inside.teardown]
  rw [left, left, executes, destroys]
  omega

theorem left_execute (wired : s.pool.Wired) {b : PoolAction n F Empty} {pool : Pool n F Empty}
    (named : s.poolAction plan .execute = some b) (taken : s.pool.step b = some pool) :
    left plan { s with pool := pool } < left plan s := by
  simp only [poolAction, Option.ite_none_right_eq_some, Option.map_eq_some_iff] at named
  obtain ⟨next, task, listed, rfl⟩ := named
  have more : s.executed < plan.tasks.length := (List.getElem?_eq_some_iff.1 listed).1
  have unborn : s.pool.stage s.executed = .unborn := by
    by_contra born
    have early := (wired.born s.executed).1 born
    rw [next] at early
    exact Nat.lt_irrefl _ early
  cases Pool.step_takes taken with
  | execute =>
      apply Nat.add_lt_add_right
      apply Nat.add_lt_add_right
      simp [executesLeft, more, unborn, Pool.setStage, next, executeLeft]

theorem left_enqueue (inOrder : InOrder plan s) (wired : s.pool.Wired) {item : Addr}
    {wake : Option (Fin n)} {pool : Pool n F Empty}
    (taken : s.pool.step (.enqueue s.executed item wake) = some pool) :
    left plan { s with pool := pool } < left plan s := by
  cases Pool.step_takes taken with
  | enqueue created linked =>
      obtain ⟨-, more, -⟩ := inOrder.executing wired (Or.inl created)
      apply Nat.add_lt_add_right
      apply Nat.add_lt_add_right
      simp [executesLeft, more, created, Pool.setStage, executeLeft]

theorem left_addCleanup (inOrder : InOrder plan s) (wired : s.pool.Wired) {link : Addr}
    {pool : Pool n F Empty} (taken : s.pool.step (.addCleanup s.executed link) = some pool) :
    left plan { s with pool := pool, executed := s.executed + 1 } < left plan s := by
  cases Pool.step_takes taken with
  | addCleanup enqueued added =>
      obtain ⟨-, more, -⟩ := inOrder.executing wired (Or.inr enqueued)
      apply Nat.add_lt_add_right
      refine Nat.add_lt_add_of_lt_of_le ?_
        (getsLeft_le (Pool.undisturbed_of_update rfl added s.got) rfl)
      have next := executeLeft_le
        (Function.update s.pool.stage s.executed .returned (s.executed + 1))
      have here : executeLeft .enqueued = 1 := rfl
      simp only [executesLeft, more, if_true, enqueued, Pool.setStage, here]
      split <;> omega

/-- A step of the test's own `future_get`, but the last. -/
theorem left_ask (more : s.got < plan.tasks.length) {future : SharedFuture (CallbackFn Empty)}
    {aborted : Bool} (less : (future.waiter 0).left future.future.isResolved <
      ((s.pool.futures s.got).waiter 0).left (s.pool.futures s.got).future.isResolved) :
    left plan { s with pool := { s.pool with
      futures := Function.update s.pool.futures s.got future, aborted := aborted } } <
      left plan s := by
  apply Nat.add_lt_add_right
  apply Nat.add_lt_add_left
  simpa [getsLeft, more] using less

theorem left_get (inOrder : InOrder plan s) {pool : Pool n F Empty}
    (taken : s.pool.step (.client s.got (.get 0)) = some pool)
    (held : (s.after plan pool .get).failed = false) :
    left plan (s.after plan pool .get) < left plan s := by
  cases Pool.step_takes taken with
  | @client _ _ future returned read =>
      obtain ⟨-, getting⟩ := Option.ite_none_left_eq_some.1 read
      obtain ⟨reading, -⟩ := SharedFuture.getStep_cases getting
      obtain ⟨-, more⟩ := inOrder.asking (by simp [reading])
      simp only [after] at held ⊢
      split at held
      · rename_i equal
        rw [if_pos equal]
        apply Nat.add_lt_add_right
        apply Nat.add_lt_add_left
        have next := Waiter.left_le
          (Function.update s.pool.futures s.got future (s.got + 1)).future.isResolved
          ((Function.update s.pool.futures s.got future (s.got + 1)).waiter 0)
        have here : ∀ resolved, Waiter.left resolved .reading = 1 := fun _ => rfl
        simp only [getsLeft, more, if_true, reading, here]
        split <;> omega
      · cases held

/-- A step of the test's own thread brings it nearer to its end. -/
theorem left_own (run : (machine plan n).Run past s) {a : PoolTestAction n F}
    (isOwn : own a = true) (outer : ∀ b, a ≠ .inside b)
    (stepped : PoolTest.step plan s a = some t) : left plan t < left plan s := by
  have inOrder := run_inOrder run
  have wired := Pool.run_wired (run_pool run)
  have held := never_failed (run.step stepped)
  obtain ⟨-, -, b, pool, named, taken, rfl⟩ := step_cases stepped
  cases a with
  | execute => exact left_execute wired named taken
  | enqueue item wake =>
      cases named
      exact left_enqueue inOrder wired taken
  | addCleanup link =>
      cases named
      exact left_addCleanup inOrder wired taken
  | wait =>
      simp only [poolAction, Option.ite_none_right_eq_some, Option.some.injEq] at named
      obtain ⟨⟨-, more⟩, rfl⟩ := named
      cases Pool.step_takes taken with
      | client returned waits =>
          obtain ⟨-, waits⟩ := Option.ite_none_left_eq_some.1 waits
          simp only [ClientAction.onFuture, SharedFuture.waitStep, Option.ite_none_right_eq_some,
            Option.some.injEq] at waits
          obtain ⟨out, rfl⟩ := waits
          refine left_ask more ?_
          cases (s.pool.futures s.got).future.isResolved <;> simp [Waiter.left, out]
  | check =>
      cases named
      cases Pool.step_takes taken with
      | client returned checks =>
          obtain ⟨-, checks⟩ := Option.ite_none_left_eq_some.1 checks
          simp only [ClientAction.onFuture, SharedFuture.checkStep] at checks
          split at checks
          · rename_i get place
            obtain rfl := inOrder.gets s.got get (Or.inl place)
            obtain ⟨-, more⟩ := inOrder.asking (by simp [place])
            split at checks
            · rename_i resolved
              cases checks
              have resolved' : (s.pool.futures s.got).future.isResolved = true := resolved
              exact left_ask more (by simp [Waiter.left, place, resolved'])
            · rename_i unresolved
              cases checks
              have unresolved' : (s.pool.futures s.got).future.isResolved = false :=
                eq_false_of_ne_true unresolved
              exact left_ask more (by simp [Waiter.left, place, unresolved'])
          · cases checks
  | spurious => cases isOwn
  | get =>
      cases named
      exact left_get inOrder taken held
  | destroyFuture =>
      simp only [poolAction, Option.ite_none_right_eq_some, Option.some.injEq] at named
      obtain ⟨⟨-, more⟩, rfl⟩ := named
      cases Pool.step_takes taken with
      | destroyFuture returned waited =>
          have executes : executesLeft plan { s with
              pool := s.pool.setStage s.destroyed .destroyed, destroyed := s.destroyed + 1 } ≤
              executesLeft plan s := by
            rw [executesLeft, executesLeft]
            split
            · refine Nat.add_le_add_left ?_ _
              by_cases same : s.executed = s.destroyed
              · simp [Pool.setStage, same, executeLeft]
              · simp [Pool.setStage, same]
            · exact Nat.le_refl 0
          refine Nat.add_lt_add_of_le_of_lt (Nat.add_le_add_right executes _) ?_
          simp only [destroysLeft]
          change plan.tasks.length - (s.destroyed + 1) + _ < plan.tasks.length - s.destroyed + _
          apply Nat.add_lt_add_right
          omega
  | destroyPool =>
      simp only [poolAction, Option.ite_none_right_eq_some, Option.some.injEq] at named
      obtain ⟨-, rfl⟩ := named
      cases Pool.step_takes taken with
      | destroy idle =>
          apply Nat.add_lt_add_left
          simp [destroysLeft, idle, after]
  | inside b => exact absurd rfl (outer b)

theorem internal_of_allowed {b : PoolAction n F Empty} (allowed : s.allowed plan b = true)
    (isOwn : own (.inside b) = true) : Pool.internal b = true := by
  cases b with
  | pop w b => cases b <;> first | rfl | cases isOwn
  | destroy b => cases b <;> first | rfl | cases allowed
  | work | cancelled => rfl
  | _ => cases allowed

/-- **The test does not go on for ever**: apart from spurious wake-ups its steps and those
of its pool end, in whatever order they are taken. -/
theorem test_ends (run : (machine plan n).Run past s) :
    (machine plan n).Ends (fun a => own a = true) s := by
  refine Machine.ends_of_phases (I := fun s => ∃ past, (machine plan n).Run past s)
    (μ := left plan) ?_ ?_ ⟨past, run⟩
  · rintro s a t ⟨past, run⟩ - stepped
    exact ⟨_, run.step stepped⟩
  · rintro s ⟨past, run⟩
    obtain ⟨size, sized⟩ := Pool.run_sized (run_pool run)
    refine ⟨fun u => u.pool.Sized size, fun u => u.pool.potential size, sized, ?_⟩
    rintro u a t ⟨earlier, upto⟩ inPhase isOwn stepped
    by_cases inner : ∃ b, a = .inside b
    · obtain ⟨b, rfl⟩ := inner
      obtain ⟨-, -, b', pool, named, taken, rfl⟩ := step_cases stepped
      simp only [poolAction, Option.ite_none_right_eq_some, Option.some.injEq] at named
      obtain ⟨allowed, rfl⟩ := named
      obtain ⟨sized', spent⟩ :=
        Pool.spends size u.pool b pool inPhase (internal_of_allowed allowed isOwn) taken
      exact Or.inr ⟨sized', left_inside (inside_of_allowed allowed taken), spent⟩
    · exact Or.inl (left_own upto isOwn (not_exists.1 inner) stepped)

/-! ## What becomes of it -/

theorem not_enabled (run : (machine plan n).Run past s)
    (halted : (machine plan n).Stuck (fun a => own a = true) s) (defined : s.undefined = false)
    {a : PoolTestAction n F} (isOwn : own a = true) {b : PoolAction n F Empty}
    (named : s.poolAction plan a = some b) {pool : Pool n F Empty}
    (taken : s.pool.step b = some pool) : False := by
  have blocked := halted a isOwn
  simp [machine, step, never_failed run, defined, named, taken] at blocked

/-- Where the test has ended its pool is at rest. -/
theorem atRest_of_halted (run : (machine plan n).Run past s)
    (halted : (machine plan n).Stuck (fun a => own a = true) s) (defined : s.undefined = false) :
    s.pool.AtRest fun _ => False := by
  intro a internal _
  by_contra enabled
  obtain ⟨pool, taken⟩ := Option.ne_none_iff_exists'.1 enabled
  obtain ⟨b, allowed, isOwn, pool', taken'⟩ : ∃ b, s.allowed plan b = true ∧
      own (.inside b) = true ∧ ∃ pool', s.pool.step b = some pool' := by
    cases a with
    | work w c =>
        cases c with
        | ret value =>
            -- a task function that may return at all may return what it computes
            cases Pool.step_takes taken with
            | @ret _ c _ place =>
                obtain ⟨task, -, expects⟩ := (Pool.run_ledger (run_pool run)).fits w c
                  (by rw [place]; rfl)
                rw [place] at expects
                have called : s.pool.callsOf c = [task] := congrArg Life.calls expects
                refine ⟨.work w (.ret (plan.compute task.1 task.2)), ?_, rfl, _,
                  Pool.step_of_act (pool_alive run) (by
                    simp [Pool.act, Pool.workStep, Pool.retStep, place]; rfl)⟩
                simp [allowed, place, called]
        | _ => exact ⟨_, rfl, rfl, pool, taken⟩
    | pop w c =>
        cases c with
        | spurious => cases internal
        | _ => exact ⟨_, rfl, rfl, pool, taken⟩
    | destroy c =>
        cases c with
        | destroy => cases internal
        | _ => exact ⟨_, rfl, rfl, pool, taken⟩
    | cancelled w c => exact ⟨_, rfl, rfl, pool, taken⟩
    | _ => cases internal
  exact not_enabled run halted defined isOwn (if_pos allowed) taken'

/-- Where it has ended no `future_pool_execute` is under way and none is left to call. -/
theorem executed_of_halted (run : (machine plan n).Run past s)
    (halted : (machine plan n).Stuck (fun a => own a = true) s) (defined : s.undefined = false)
    (idle : s.pool.destroyer = .idle) : s.executed = plan.tasks.length := by
  have inOrder := run_inOrder run
  have wired := Pool.run_wired (run_pool run)
  have alive := pool_alive run
  have there : s.pool.destroyer.queueGone = false := by simp [idle, Destroyer.queueGone]
  have within := inOrder.submissions_le
  cases stage : s.pool.stage s.executed with
  | unborn =>
      have next : s.pool.submissions.length = s.executed := by
        rcases inOrder.current with same | ⟨-, created | enqueued⟩
        · exact same
        · simp [stage] at created
        · simp [stage] at enqueued
      by_contra short
      have more : s.executed < plan.tasks.length := by omega
      obtain ⟨task, listed⟩ : ∃ task, plan.tasks[s.executed]? = some task :=
        ⟨_, List.getElem?_eq_getElem more⟩
      have named : s.poolAction plan .execute = some (.execute task.1 task.2) := by
        simp [poolAction, next, listed]
      exact not_enabled run halted defined (a := .execute) rfl named
        (Pool.step_of_takes alive there .execute)
  | created =>
      obtain ⟨item, wake, workQueue, linked⟩ :=
        WorkQueue.exists_enqueue (Pool.run_queue (run_pool run)) s.executed
      exact (not_enabled run halted defined (a := .enqueue item wake) rfl rfl
        (Pool.step_of_takes alive there (.enqueue stage linked))).elim
  | enqueued =>
      obtain ⟨link, future, added, -⟩ := SharedFuture.exists_addCallback
        (Pool.run_future (run_pool run) s.executed) (Pool.run_alive (run_pool run) alive s.executed)
        (some .cleanupExecute) (some s.executed)
      exact (not_enabled run halted defined (a := .addCleanup link) rfl rfl
        (Pool.step_of_takes alive there (.addCleanup stage added))).elim
  | returned | destroyed =>
      have born : s.executed < s.pool.submissions.length :=
        (wired.born s.executed).1 (by simp [stage])
      rcases inOrder.current with same | ⟨-, created | enqueued⟩
      · rw [same] at born
        exact absurd born (Nat.lt_irrefl _)
      · simp [stage] at created
      · simp [stage] at enqueued

/-- And if a `future_get` is under way there, it sleeps. -/
theorem asleep_of_halted (run : (machine plan n).Run past s)
    (halted : (machine plan n).Stuck (fun a => own a = true) s) (defined : s.undefined = false)
    (idle : s.pool.destroyer = .idle) (more : s.got < plan.tasks.length) :
    (s.pool.futures s.got).waiter 0 = .asleep true ∧ s.pool.stage s.got = .returned := by
  have inOrder := run_inOrder run
  have alive := pool_alive run
  have there : s.pool.destroyer.queueGone = false := by simp [idle, Destroyer.queueGone]
  have all := executed_of_halted run halted defined idle
  have future := Pool.run_future (run_pool run) s.got
  have goesOn := Pool.run_alive (run_pool run) alive s.got
  have returned : s.pool.stage s.got = .returned := by
    have none_ : s.destroyed = 0 := by
      by_contra some_
      have through := inOrder.gotFirst (Nat.pos_of_ne_zero some_)
      omega
    simpa [none_] using inOrder.returned s.got (all ▸ more)
  refine ⟨?_, returned⟩
  cases place : (s.pool.futures s.got).waiter 0 with
  | outside =>
      have waits : (s.pool.futures s.got).step (.wait 0 true) = some { s.pool.futures s.got with
          waiter := Function.update (s.pool.futures s.got).waiter 0 (.checking true) } := by
        simp [SharedFuture.step, goesOn, SharedFuture.waitStep, place]
      exact (not_enabled run halted defined (a := .wait) rfl (if_pos ⟨all, more⟩)
        (Pool.step_of_takes alive there (.client (a := .wait 0 true) returned waits))).elim
  | checking get =>
      obtain ⟨u, checks, -⟩ := SharedFuture.exists_check goesOn place
      exact (not_enabled run halted defined (a := .check) rfl rfl
        (Pool.step_of_takes alive there (.client (a := .check 0) returned checks))).elim
  | asleep get =>
      obtain rfl := inOrder.gets s.got get (Or.inr place)
      rfl
  | reading =>
      obtain ⟨value, shown, -⟩ :=
        value_wanted run ((SharedFuture.run_waits future).reading 0 place)
      have reads : (s.pool.futures s.got).step (.get 0) = some { s.pool.futures s.got with
          waiter := Function.update (s.pool.futures s.got).waiter 0 .outside
          returns := (s.pool.futures s.got).returns ++ [⟨0, some value⟩] } := by
        simp [SharedFuture.step, goesOn, SharedFuture.getStep, place, shown]
      exact (not_enabled run halted defined (a := .get) rfl rfl
        (Pool.step_of_takes alive there (.client (a := .get 0) returned reads))).elim

/-- With all results got, nothing holds up the rest. -/
theorem not_halted_of_got (run : (machine plan n).Run past s)
    (halted : (machine plan n).Stuck (fun a => own a = true) s) (defined : s.undefined = false)
    (idle : s.pool.destroyer = .idle) (got : s.got = plan.tasks.length) : False := by
  have inOrder := run_inOrder run
  have alive := pool_alive run
  have there : s.pool.destroyer.queueGone = false := by simp [idle, Destroyer.queueGone]
  by_cases more : s.destroyed < plan.tasks.length
  · have all := executed_of_halted run halted defined idle
    have returned : s.pool.stage s.destroyed = .returned := by
      simpa using inOrder.returned s.destroyed (all ▸ more)
    have waited := inOrder.waited s.destroyed (got ▸ more)
    exact not_enabled run halted defined (a := .destroyFuture) rfl (if_pos ⟨got, more⟩)
      (Pool.step_of_takes alive there (.destroyFuture returned waited))
  · have none_ : s.destroyed = plan.tasks.length :=
      Nat.le_antisymm inOrder.destroyed_le (Nat.not_lt.1 more)
    exact not_enabled run halted defined (a := .destroyPool) rfl (if_pos ⟨got, none_⟩)
      (Pool.step_of_takes alive there (.destroy idle))

/-- A teardown that has begun comes after every result. -/
theorem settled_of_teardown (run : (machine plan n).Run past s)
    (busy : s.pool.destroyer ≠ .idle) (born : s.pool.stage i ≠ .unborn) :
    (s.pool.futures i).outcomes ≠ [] := by
  have inOrder := run_inOrder run
  have inPool := run_pool run
  obtain ⟨got, -⟩ := inOrder.teardown busy
  have early : i < s.pool.submissions.length := ((Pool.run_wired inPool).born i).1 born
  exact Pool.resolved_of_waited inPool
    (inOrder.waited i (got ▸ early.trans_le inOrder.submissions_le))

theorem delivered_of_teardown (run : (machine plan n).Run past s)
    (busy : s.pool.destroyer ≠ .idle) : s.pool.workQueue.enqueued ⊆ s.pool.delivered := by
  intro c enqueued
  have queued := ((Pool.run_wired (run_pool run)).queued c).1 enqueued
  have settled := settled_of_teardown run busy (i := c) fun unborn => by
    simp [unborn, Stage.isQueued] at queued
  by_contra notDelivered
  exact settled (congrArg Life.outcomes
    ((Pool.run_ledger (run_pool run)).waiting c notDelivered))

/-- A test in its teardown has had every task from the queue. -/
theorem never_severed (run : (machine plan n).Run past s) (busy : s.pool.destroyer ≠ .idle) :
    ∀ e ∈ past, e.1.severs plan e.2 = false := by
  have inPool := run_pool run
  have bound := (List.subperm_of_subset (Pool.run_wired inPool).once
    (delivered_of_teardown run busy)).length_le
  rw [Pool.delivered, List.length_map] at bound
  obtain ⟨l, sound, even, -⟩ := WorkQueue.run_deficit (Pool.run_queue inPool)
  have none_ : s.pool.workQueue.deficit l = 0 := by
    rw [WorkQueue.deficit]
    omega
  exact severs_poolPast.1 ((Pool.severs_project _).1 (even.1 none_))

/-- So its `queue_destroy` finds the queue empty. -/
theorem done_of_gone (run : (machine plan n).Run past s)
    (gone : s.pool.destroyer.queueGone = true) : s.pool.destroyer = .done := by
  have inPool := run_pool run
  have found := Pool.run_found inPool
  cases place : s.pool.destroyer with
  | done => rfl
  | atReleased item =>
      rw [Pool.Found, place] at found
      obtain ⟨l, sound⟩ := WorkQueue.run_sound (Pool.run_queue inPool)
      obtain ⟨c, enqueued, onChain⟩ := sound.exists_onChain (by simp [found])
      have delivered := delivered_of_teardown run (by simp [place]) enqueued
      exact absurd delivered (sound.not_delivered (Pool.run_wired inPool).once onChain)
  | _ => simp [place, Destroyer.queueGone] at gone

/-- Where the test has ended it is through, or sleeps on a task that the queue has lost. -/
theorem done_or_waits (workers : 0 < n) (run : (machine plan n).Run past s)
    (halted : (machine plan n).Stuck (fun a => own a = true) s) (defined : s.undefined = false) :
    s.pool.destroyer = .done ∨ (s.got < plan.tasks.length ∧
      (s.pool.futures s.got).waiter 0 = .asleep true ∧ s.pool.Dropped s.got) := by
  have inPool := run_pool run
  have alive := pool_alive run
  have atRest := atRest_of_halted run halted defined
  rcases atRest.teardown inPool alive with idle | gone
  · right
    have more : s.got < plan.tasks.length := by
      by_contra all
      exact not_halted_of_got run halted defined idle
        (Nat.le_antisymm (run_inOrder run).got_le (Nat.not_lt.1 all))
    obtain ⟨asleep, returned⟩ := asleep_of_halted run halted defined idle more
    refine ⟨more, asleep, ?_⟩
    by_contra kept
    have enqueued : s.got ∈ s.pool.workQueue.enqueued :=
      ((Pool.run_wired inPool).queued s.got).2 (by simp [returned, Stage.isQueued])
    have everyone : ∀ w, s.pool.Asleep w := by
      intro w
      obtain ⟨l, torn⟩ := Pool.run_torn inPool
      simpa [torn.alive_of_idle idle w] using atRest.worker inPool alive w
    have now := Pool.resolved_at_rest workers inPool .none (by simp) everyone enqueued kept
    rw [futureIsResolved,
      (SharedFuture.run_waits (Pool.run_future inPool s.got)).asleep 0 true asleep] at now
    cases now
  · exact Or.inl (done_of_gone run gone)

/-- A test that is through has destroyed its futures in time: no walk was cut off, since
it registers no callback of its own. -/
theorem inTime_of_completed (run : (machine plan n).Run past s) (completed : s.Completed) :
    ∀ e ∈ past, e.1.inTime plan e.2 = true := by
  obtain ⟨-, defined, done⟩ := completed
  have inPool := run_pool run
  refine inTime_poolPast.1 (Pool.destroysInTime_of_noLateTouch inPool ?_
    ((run_undefined run).1 defined))
  intro i destroyed
  have settled := settled_of_teardown run (i := i) (by simp [done]) (by simp [destroyed])
  rcases Pool.returned_or_walking inPool settled with returned | ⟨w, walking⟩ | ⟨w, cutOff⟩
  · exact returned
  · obtain ⟨l, torn⟩ := Pool.run_torn inPool
    have gone := torn.all_terminated (by simp [done, Destroyer.rest]) w
    simp [Pool.isTerminated, walking] at gone
  · exact (Pool.user_of_cutOff inPool cutOff).elim Empty.elim

/-- A test that is through, with its workers joined, has no step left. -/
theorem stuck_of_completed (run : (machine plan n).Run past s) (completed : s.Completed) :
    (machine plan n).Stuck (fun a => own a = true) s := by
  obtain ⟨-, -, done⟩ := completed
  have inOrder := run_inOrder run
  have wired := Pool.run_wired (run_pool run)
  obtain ⟨got, destroyed⟩ := inOrder.teardown (by simp [done])
  have outside : (s.pool.futures s.got).waiter 0 = .outside := by
    by_contra asks
    exact absurd got (Nat.ne_of_lt (inOrder.asking asks).2)
  intro a isOwn
  by_contra enabled
  obtain ⟨t, stepped⟩ := Option.ne_none_iff_exists'.1 enabled
  obtain ⟨-, -, b, pool, named, taken, -⟩ := step_cases stepped
  cases a with
  | execute =>
      simp only [poolAction, Option.ite_none_right_eq_some, Option.map_eq_some_iff] at named
      obtain ⟨-, task, -, rfl⟩ := named
      simp [Pool.step, Pool.act, Pool.executeStep, done, Destroyer.queueGone] at taken
  | enqueue item wake =>
      cases named
      have there := Pool.there_of_enqueue taken
      rw [done] at there
      cases there
  | addCleanup link =>
      cases named
      cases Pool.step_takes taken with
      | addCleanup enqueued added =>
          obtain ⟨-, more, none_, -⟩ := inOrder.executing wired (Or.inr enqueued)
          omega
  | wait =>
      simp only [poolAction, Option.ite_none_right_eq_some] at named
      exact absurd got (Nat.ne_of_lt named.1.2)
  | check =>
      cases named
      cases Pool.step_takes taken with
      | client returned checks =>
          simp [ClientAction.onFuture, SharedFuture.step, SharedFuture.checkStep, outside] at checks
  | spurious => cases isOwn
  | get =>
      cases named
      cases Pool.step_takes taken with
      | client returned reads =>
          simp [ClientAction.onFuture, SharedFuture.step, SharedFuture.getStep, outside] at reads
  | destroyFuture =>
      simp only [poolAction, Option.ite_none_right_eq_some] at named
      exact absurd destroyed (Nat.ne_of_lt named.1.2)
  | destroyPool =>
      simp only [poolAction, Option.ite_none_right_eq_some, Option.some.injEq] at named
      obtain ⟨-, rfl⟩ := named
      cases Pool.step_takes taken with
      | destroy idle => simp [done] at idle
  | inside b =>
      simp only [poolAction, Option.ite_none_right_eq_some, Option.some.injEq] at named
      obtain ⟨allowed, rfl⟩ := named
      have atRest : s.pool.AtRest fun _ => False := Pool.atRest_of_done (run_pool run) done
      rw [atRest b (internal_of_allowed allowed isOwn) fun _ _ _ => id] at taken
      cases taken

/-- `future_pool_execute`, with no worker asleep. -/
def executeCall (i : Addr) : List (PoolTestAction n F) :=
  [.execute, .enqueue i none, .addCleanup 0]

def turn (w : Fin n) (value : Ptr) : List (PoolTestAction n F) :=
  (Pool.executorTurn w value 1).map .inside

def getCall : List (PoolTestAction n F) := [.wait, .check, .get]

/-- `future_pool_destroy`, with every worker of the pool of four asleep. -/
def destroyCall : List (PoolTestAction 4 F) :=
  .destroyPool :: [3, 2, 1, 0].flatMap (fun w =>
    (Pool.executorDestroy w (.wait none)).map .inside) ++ [.inside (.destroy .queueDestroy)]

def sleepAll : List (PoolTestAction 4 F) := [0, 1, 2, 3].map fun w => .inside (.pop w .pop)

/-- Three tasks on one worker, the third enqueued when the first has been popped: with the
worker asleep the test sleeps on the third. -/
example : ((machine (n := 1) (F := TestFn)
    { tasks := [(.testFutureFn, some 1), (.testFutureFn, some 2), (.testFutureFn, some 1)]
      compute := fun _ => testFutureFn
      wanted := [some 15, some 20, some 15]
      fits := by decide }).exec
    (executeCall 0 ++ executeCall 1 ++ [.inside (.pop 0 .pop)] ++ executeCall 2 ++
      (turn 0 (some 15)).tail ++ turn 0 (some 20) ++ getCall ++ getCall ++
      [.wait, .check, .inside (.pop 0 .pop)])).any
      (fun r => decide (r.2.got = 2) && decide ((r.2.pool.futures 2).waiter 0 = .asleep true) &&
        decide (r.2.pool.workQueue.phase 0 = .asleep)) = true := by
  decide +kernel

/-- Two tasks never find the list adrift. -/
theorem never_severs_two (few : plan.tasks.length ≤ 2) (run : (machine plan n).Run past s) :
    ∀ e ∈ past, e.1.severs plan e.2 = false := by
  intro e recorded
  obtain ⟨earlier, upto⟩ := run.before recorded
  obtain ⟨_, _, t, -, -, stepped, -⟩ := Machine.Steps.of_mem run recorded
  obtain ⟨-, -, b, pool, named, taken, -⟩ := step_cases stepped
  by_contra severed
  have inPool := run_pool upto
  have wired := Pool.run_wired inPool
  simp only [severs, named, Option.any_some, Bool.not_eq_false] at severed
  cases b with
  | enqueue i item wake =>
      have severed' : e.1.pool.workQueue.severs (.enqueue item i wake) = true := severed
      have both := WorkQueue.enqueued_of_severs (Pool.run_queue inPool) severed'
      cases Pool.step_takes taken with
      | enqueue created linked =>
          -- two are in the queue already, and this one is not
          have fresh : i ∉ e.1.pool.workQueue.enqueued := fun listed => by
            have queued := (wired.queued i).1 listed
            simp [created, Stage.isQueued] at queued
          have among : i :: e.1.pool.workQueue.enqueued ⊆
              List.range e.1.pool.submissions.length := by
            intro c listed
            rw [List.mem_range]
            apply (wired.born c).1
            rintro unborn
            rcases List.mem_cons.1 listed with rfl | listed
            · simp [unborn] at created
            · have queued := (wired.queued c).1 listed
              simp [unborn, Stage.isQueued] at queued
          have apart := List.nodup_cons.2 ⟨fresh, wired.once⟩
          have bound := (List.subperm_of_subset apart among).length_le
          have within := (run_inOrder upto).submissions_le
          rw [List.length_cons, List.length_range] at bound
          omega
  | pop w c => cases c <;> cases severed
  | cancelled w c => cases c <;> cases severed
  | _ => cases severed

/-- The caller is faster: the worker has released it from its `future_get` and comes to the
future when it has been destroyed. -/
example : ((machine futurePoolTest 4).exec
    (executeCall 0 ++ executeCall 1 ++ turn 0 (some 15) ++ (turn 1 (some 20)).take 6 ++
      getCall ++ getCall ++ [.destroyFuture, .destroyFuture,
        .inside (.work 1 (.walk .assertResolved))])).any (fun r => r.2.undefined) = true := by
  decide +kernel

end PoolTest

end Cfutures
