/-
# Selftest.Future -- the self tests of the future and of the promise

`future_test` and the two halves of `promise_test` have one shape: a thread settles a
promise, the test waits for its future and joins the thread.  They differ in how many
callbacks are registered before, in how the thread settles, and in whether the test calls
`future_get` or `future_wait` (`FutureTestPlan`).  A callback is `test_callback`, which
calls `future_get` in its turn, inside the walk of the settling thread.

* `run_tidy`: where the two threads are, and what that says of the future;
* `spends`: apart from spurious wake-ups every step brings the test nearer to its end;
* `through_iff`: where it ends it has passed exactly if the thread fulfils, or if nobody
  calls `future_get`; otherwise an assertion of `future_get` has ended the process.
-/
import Cfutures.Future.Assertions
import Cfutures.Future.Cancellation
import Cfutures.Future.Getting
import Cfutures.Future.Order
import Cfutures.Theory.Progress

namespace Cfutures

open Cfutures.Theory

set_option autoImplicit false

universe u

/-- What the threads of such a test do. -/
structure FutureTestPlan where
  /-- How often `test_callback` is registered. -/
  callbacks : Nat
  /-- How the thread settles its promise. -/
  outcome : Outcome
  /-- The test calls `future_get`, not `future_wait`. -/
  get : Bool

/-- Where the test is. -/
inductive TestPlace where
  | registering
  | created
  /-- In `future_get` or `future_wait`. -/
  | waiting
  | joining
  | joined
  | passed
  deriving DecidableEq

/-- Where the thread that it creates is. -/
inductive ThreadPlace where
  | ready
  /-- In `promise_fulfill` or `promise_reject`, and in no callback. -/
  | settling
  /-- In `test_callback`, before its `future_get`. -/
  | called
  /-- In the `future_get` of `test_callback`. -/
  | getting
  | exited
  deriving DecidableEq

inductive TestCallback where
  | testCallback

structure FutureTest where
  future : SharedFuture TestCallback
  /-- Callbacks registered; the next gets the address of the next result. -/
  registered : Nat
  place : TestPlace
  thread : ThreadPlace
  /-- `result_1`, `result_2`. -/
  result : Addr → Ptr
  /-- An assertion of the test has failed. -/
  failed : Bool

/-- The steps of the test, waiter 0 of the future, and of the thread, waiter 1. -/
inductive FutureTestAction where
  | register (link : Addr)
  | create
  | wait
  | check
  | spurious
  | get
  | join
  | destroy
  | settle
  | walk (step : WalkStep)
  | callbackWait
  | callbackCheck
  | callbackGet

namespace FutureTest

def start : FutureTest where
  future := SharedFuture.start
  registered := 0
  place := .registering
  thread := .ready
  result := fun _ => none
  failed := false

/-- The two threads are where they take this step. -/
def enabled (plan : FutureTestPlan) (s : FutureTest) : FutureTestAction → Bool
  | .register _ => decide (s.place = .registering ∧ s.registered < plan.callbacks)
  | .create => decide (s.place = .registering ∧ s.registered = plan.callbacks)
  | .wait => decide (s.place = .created)
  | .check | .spurious | .get => decide (s.place = .waiting)
  | .join => decide (s.place = .joining ∧ s.thread = .exited)
  | .destroy => decide (s.place = .joined)
  | .settle => decide (s.place ≠ .registering ∧ s.thread = .ready)
  | .walk _ => decide (s.thread = .settling)
  | .callbackWait => decide (s.thread = .called)
  | .callbackCheck | .callbackGet => decide (s.thread = .getting)

/-- The step of the future that a step of the test is. -/
def futureAction (plan : FutureTestPlan) (s : FutureTest) :
    FutureTestAction → Option (FutureAction TestCallback)
  | .register link => some (.addCallback link (some .testCallback) (some s.registered))
  | .wait => some (.wait 0 plan.get)
  | .check => some (.check 0)
  | .spurious => some (.spurious 0)
  | .get => some (.get 0)
  | .settle => some (.settle plan.outcome)
  | .walk step => some (.walk 0 step)
  | .callbackWait => some (.wait 1 true)
  | .callbackCheck => some (.check 1)
  | .callbackGet => some (.get 1)
  | .create | .join | .destroy => none

/-- What the latest `future_get` has returned. -/
def gotten (future : SharedFuture TestCallback) : Option Ptr :=
  future.returns.getLast?.bind WaitReturn.value

/-- What `promise_test` asserts past its wait; `future_test` asserts nothing there. -/
def asserted (plan : FutureTestPlan) (future : Future) (value : Option Ptr) : Bool :=
  match plan.outcome, value with
  | .fulfill wanted, some value => decide (value = wanted)
  | .reject rc, none =>
      futureIsResolved future && !futureIsFulfilled future &&
        decide (futureRejectedCode future = rc)
  | _, _ => true

/-- What `future_test` asserts past the join. -/
def resultsHold (plan : FutureTestPlan) (result : Addr → Ptr) : Bool :=
  match plan.outcome with
  | .fulfill wanted => decide (∀ i < plan.callbacks, result i = wanted)
  | .reject _ => true

/-- `future_get` or `future_wait` has returned to the test. -/
def waited (plan : FutureTestPlan) (s : FutureTest) (future : SharedFuture TestCallback)
    (value : Option Ptr) : FutureTest :=
  if asserted plan future.future value then { s with future := future, place := .joining }
  else { s with future := future, failed := true }

/-- The argument of the callback that the thread is in. -/
def argument (future : SharedFuture TestCallback) : Ptr :=
  match future.call 0 with
  | .executing callback => (future.records callback).bind Callback.args
  | _ => none

/-- `*result = value`. -/
def store (s : FutureTest) (future : SharedFuture TestCallback) : Addr → Ptr :=
  match argument future, gotten future with
  | some i, some value => Function.update s.result i value
  | _, _ => s.result

/-- The test after a step, with the future after it. -/
def after (plan : FutureTestPlan) (s : FutureTest) (future : SharedFuture TestCallback) :
    FutureTestAction → FutureTest
  | .register _ => { s with future := future, registered := s.registered + 1 }
  | .create => { s with future := future, place := .created }
  | .wait => { s with future := future, place := .waiting }
  | .check =>
      if future.waiter 0 = .outside then s.waited plan future none else { s with future := future }
  | .get =>
      if future.aborted then { s with future := future } else s.waited plan future (gotten future)
  | .join =>
      if resultsHold plan s.result then { s with future := future, place := .joined }
      else { s with future := future, failed := true }
  | .destroy => { s with future := future, place := .passed }
  | .settle => { s with future := future, thread := .settling }
  | .walk .execute => { s with future := future, thread := .called }
  | .walk .finish => { s with future := future, thread := .exited }
  | .callbackWait =>
      -- assert (future_is_resolved (future))
      if futureIsResolved s.future.future then { s with future := future, thread := .getting }
      else { s with future := future, failed := true }
  | .callbackGet =>
      if future.aborted then { s with future := future }
      else { s with future := future, thread := .settling, result := s.store future }
  | .walk _ | .spurious | .callbackCheck => { s with future := future }

/-- A failed assertion ends the process. -/
def step (plan : FutureTestPlan) (s : FutureTest) (a : FutureTestAction) : Option FutureTest :=
  if s.failed || s.future.aborted || !s.enabled plan a then none
  else match s.futureAction plan a with
    | none => some (s.after plan s.future a)
    | some b => (s.future.step b).map fun future => s.after plan future a

def machine (plan : FutureTestPlan) : Machine FutureTest FutureTestAction where
  start := start
  step := step plan

/-- A step that is not a wake-up out of nothing. -/
def own : FutureTestAction → Bool
  | .spurious => false
  | _ => true

end FutureTest

/-! ## The tests of the source -/

/-- `future_test`. -/
def futureTest : FutureTestPlan where
  callbacks := 2
  outcome := .fulfill (some 12345)
  get := false

/-- The first half of `promise_test`, with the address of its string. -/
def promiseTestFulfilled (value : Addr) : FutureTestPlan where
  callbacks := 0
  outcome := .fulfill (some value)
  get := true

/-- The second half of `promise_test`. -/
def promiseTestRejected : FutureTestPlan where
  callbacks := 0
  outcome := .reject (-1)
  get := false

namespace FutureTest

variable {plan : FutureTestPlan} {s t : FutureTest} {a : FutureTestAction}
variable {past : List (FutureTest × FutureTestAction)}

/-! ## What a step can do -/

theorem step_cases (stepped : step plan s a = some t) :
    s.failed = false ∧ s.future.aborted = false ∧ s.enabled plan a = true ∧
      ((s.futureAction plan a = none ∧ t = s.after plan s.future a) ∨
        ∃ b future, s.futureAction plan a = some b ∧ s.future.step b = some future ∧
          t = s.after plan future a) := by
  simp only [step, Option.ite_none_left_eq_some, Bool.or_eq_true, not_or, Bool.not_eq_true,
    Bool.not_eq_false'] at stepped
  obtain ⟨⟨⟨going, alive⟩, enabled⟩, taken⟩ := stepped
  refine ⟨going, alive, enabled, ?_⟩
  cases named : s.futureAction plan a with
  | none =>
      simp only [named, Option.some.injEq] at taken
      exact Or.inl ⟨rfl, taken.symm⟩
  | some b =>
      simp only [named, Option.map_eq_some_iff] at taken
      obtain ⟨future, moved, rfl⟩ := taken
      exact Or.inr ⟨b, future, rfl, moved, rfl⟩

/-- What each step can do: the guard it has passed, and the step of the future. -/
inductive Takes (plan : FutureTestPlan) (s : FutureTest) : FutureTestAction → FutureTest → Prop
  | register {link : Addr} {future : SharedFuture TestCallback} (place : s.place = .registering)
      (more : s.registered < plan.callbacks)
      (added : s.future.addCallbackStep link (some .testCallback) (some s.registered) =
        some future) : Takes plan s (.register link) (s.after plan future (.register link))
  | create (place : s.place = .registering) (all : s.registered = plan.callbacks) :
      Takes plan s .create (s.after plan s.future .create)
  | wait {future : SharedFuture TestCallback} (place : s.place = .created)
      (waits : s.future.waitStep 0 plan.get = some future) :
      Takes plan s .wait (s.after plan future .wait)
  | check {future : SharedFuture TestCallback} (place : s.place = .waiting)
      (checks : s.future.checkStep 0 = some future) :
      Takes plan s .check (s.after plan future .check)
  | spurious {future : SharedFuture TestCallback} (place : s.place = .waiting)
      (wakes : s.future.spuriousStep 0 = some future) :
      Takes plan s .spurious (s.after plan future .spurious)
  | get {future : SharedFuture TestCallback} (place : s.place = .waiting)
      (gets : s.future.getStep 0 = some future) : Takes plan s .get (s.after plan future .get)
  | join (place : s.place = .joining) (exited : s.thread = .exited) :
      Takes plan s .join (s.after plan s.future .join)
  | destroy (place : s.place = .joined) : Takes plan s .destroy (s.after plan s.future .destroy)
  | settle (begun : s.place ≠ .registering) (ready : s.thread = .ready) :
      Takes plan s .settle (s.after plan (s.future.settleStep plan.outcome) .settle)
  | walk {step : WalkStep} {future : SharedFuture TestCallback} (settling : s.thread = .settling)
      (walked : s.future.walkStep 0 step = some future) :
      Takes plan s (.walk step) (s.after plan future (.walk step))
  | callbackWait {future : SharedFuture TestCallback} (called : s.thread = .called)
      (waits : s.future.waitStep 1 true = some future) :
      Takes plan s .callbackWait (s.after plan future .callbackWait)
  | callbackCheck {future : SharedFuture TestCallback} (getting : s.thread = .getting)
      (checks : s.future.checkStep 1 = some future) :
      Takes plan s .callbackCheck (s.after plan future .callbackCheck)
  | callbackGet {future : SharedFuture TestCallback} (getting : s.thread = .getting)
      (gets : s.future.getStep 1 = some future) :
      Takes plan s .callbackGet (s.after plan future .callbackGet)

theorem step_takes (stepped : step plan s a = some t) : Takes plan s a t := by
  obtain ⟨-, alive, enabled, ⟨named, rfl⟩ | ⟨b, future, named, moved, rfl⟩⟩ := step_cases stepped
  · cases a <;> cases named <;> simp only [FutureTest.enabled, decide_eq_true_eq] at enabled
    · exact .create enabled.1 enabled.2
    · exact .join enabled.1 enabled.2
    · exact .destroy enabled
  · obtain ⟨-, taken⟩ := Option.ite_none_left_eq_some.1 moved
    cases a <;> cases named <;> simp only [FutureTest.enabled, decide_eq_true_eq] at enabled
    · exact .register enabled.1 enabled.2 taken
    · exact .wait enabled taken
    · exact .check enabled taken
    · exact .spurious enabled taken
    · exact .get enabled taken
    · cases taken
      exact .settle enabled.1 enabled.2
    · exact .walk enabled taken
    · exact .callbackWait enabled taken
    · exact .callbackCheck enabled taken
    · exact .callbackGet enabled taken

@[simp]
theorem waited_future (future : SharedFuture TestCallback) (value : Option Ptr) :
    (s.waited plan future value).future = future := by
  unfold waited
  split <;> rfl

@[simp]
theorem after_future (future : SharedFuture TestCallback) (a : FutureTestAction) :
    (s.after plan future a).future = future := by
  cases a with
  | walk step => cases step <;> rfl
  | check | get =>
      simp only [after]
      split <;> simp
  | join | callbackWait | callbackGet =>
      simp only [after]
      split <;> rfl
  | _ => rfl

theorem projects : Machine.Projects (machine plan) (SharedFuture.machine TestCallback)
    FutureTest.future (futureAction plan) := by
  intro s a t stepped
  obtain ⟨-, -, -, ⟨named, rfl⟩ | ⟨b, future, named, moved, rfl⟩⟩ := step_cases stepped
  · rw [named, after_future]
    exact rfl
  · rw [named]
    change s.future.step b = some _
    rw [moved, after_future]

/-- The run of the future in a run of the test. -/
def futurePast (plan : FutureTestPlan) (past : List (FutureTest × FutureTestAction)) :
    List (SharedFuture TestCallback × FutureAction TestCallback) :=
  Machine.projectPast FutureTest.future (futureAction plan) past

theorem run_future (run : (machine plan).Run past s) :
    (SharedFuture.machine TestCallback).Run (futurePast plan past) s.future :=
  Machine.Run.project (π := FutureTest.future) rfl projects run

/-! ## Where the two threads are -/

/-- Where the settling call is while the thread is here. -/
def settlerAt (future : SharedFuture TestCallback) : ThreadPlace → Prop
  | .ready => future.outcomes = []
  | .settling => future.call 0 ≠ .returned
  | .called | .getting => ∃ callback, future.call 0 = .executing callback
  | .exited => future.call 0 = .returned

/-- The thread is in this callback. -/
def InCallback (s : FutureTest) (callback : Addr) : Prop :=
  (s.thread = .called ∨ s.thread = .getting) ∧ s.future.call 0 = .executing callback

structure Tidy (plan : FutureTestPlan) (s : FutureTest) : Prop where
  registered : s.registered ≤ plan.callbacks
  young : s.place = .registering → s.thread = .ready
  full : s.place ≠ .registering → s.registered = plan.callbacks
  settled : s.thread ≠ .ready → s.future.outcomes = [plan.outcome]
  settler : settlerAt s.future s.thread
  loaded : ∀ head, s.future.loaded 0 = some head → head = s.future.future.callbacks
  fits : ∀ c record, s.future.records c = some record →
    callbackExecutable record = true ∧ ∃ i < s.registered, record.args = some i
  linked : ∀ i < s.registered, ∃ c record, s.future.records c = some record ∧
    record.args = some i
  outside : s.place ≠ .waiting → s.future.waiter 0 = .outside
  asking : s.place = .waiting → s.future.waiter 0 = .checking plan.get ∨
    s.future.waiter 0 = .asleep plan.get ∨ s.future.waiter 0 = .reading ∧ plan.get = true
  apart : s.thread ≠ .getting → s.future.waiter 1 = .outside
  getting : s.thread = .getting →
    s.future.waiter 1 = .checking true ∨ s.future.waiter 1 = .reading
  stored : ∀ c ∈ s.future.executedBy 0, s.InCallback c ∨
    ∃ value, plan.outcome = .fulfill value ∧
      ∀ record i, s.future.records c = some record → record.args = some i → s.result i = value
  seen : plan.get = true → s.place = .joining ∨ s.place = .joined ∨ s.place = .passed →
    ∃ value, plan.outcome = .fulfill value
  exited : s.place = .joined ∨ s.place = .passed → s.thread = .exited
  gone : s.future.aborted = true →
    (∃ rc, plan.outcome = .reject rc) ∧ (0 < plan.callbacks ∨ plan.get = true)
  going : s.failed = false

theorem start_tidy : Tidy plan start where
  registered := Nat.zero_le _
  young _ := rfl
  full other := absurd rfl other
  settled other := absurd rfl other
  settler := rfl
  loaded _ read := by simp [start, SharedFuture.start] at read
  fits _ _ present := by simp [start, SharedFuture.start] at present
  linked i early := absurd early (Nat.not_lt_zero i)
  outside _ := rfl
  asking here := by simp [start] at here
  apart _ := rfl
  getting here := by simp [start] at here
  stored c ran := by simp [start, SharedFuture.start, SharedFuture.executedBy] at ran
  seen _ here := by simp [start] at here
  exited here := by simp [start] at here
  gone aborted := by simp [start, SharedFuture.start] at aborted
  going := rfl

theorem Tidy.register (tidy : Tidy plan s) {order : List Addr} (walks : s.future.Walks order)
    (place : s.place = .registering) (more : s.registered < plan.callbacks) {link : Addr}
    {future : SharedFuture TestCallback}
    (added : s.future.addCallbackStep link (some .testCallback) (some s.registered) = some future) :
    Tidy plan { s with future := future, registered := s.registered + 1 } := by
  obtain ⟨fresh, rfl⟩ := SharedFuture.addCallbackStep_cases added
  have ready := tidy.young place
  have none_ : s.future.outcomes = [] := by simpa [ready, settlerAt] using tidy.settler
  have idle := walks.pending 0 (by simp [none_])
  obtain ⟨unread, unrun⟩ : s.future.loaded 0 = none ∧ s.future.executedBy 0 = [] := by
    have walked := walks.walked 0
    rwa [idle] at walked
  refine { tidy with
    registered := more
    full := fun other => absurd place other
    loaded := fun head read => by simp [unread] at read
    settler := by simpa [ready, settlerAt] using none_
    stored := fun c ran => by
      have ran' : c ∈ s.future.executedBy 0 := ran
      rw [unrun] at ran'
      cases ran'
    fits := ?_
    linked := ?_ }
  · intro c record present
    by_cases same : c = link
    · subst same
      simp only [Store.put_same, Option.some.injEq] at present
      subst present
      exact ⟨rfl, s.registered, Nat.lt_succ_self _, rfl⟩
    · simp only [Store.put_ne _ _ same] at present
      obtain ⟨fit, i, early, args⟩ := tidy.fits c record present
      exact ⟨fit, i, Nat.lt_succ_of_lt early, args⟩
  · intro i early
    rcases Nat.lt_succ_iff_lt_or_eq.1 early with earlier | rfl
    · obtain ⟨c, record, present, args⟩ := tidy.linked i earlier
      have other : c ≠ link := by
        rintro rfl
        rw [fresh] at present
        cases present
      exact ⟨c, record, by simpa only [Store.put_ne _ _ other] using present, args⟩
    · exact ⟨link, _, Store.put_same .., rfl⟩

/-- The test moves in its `future_get` or `future_wait`, into it or out of it. -/
theorem Tidy.ask (tidy : Tidy plan s) {p : TestPlace} {w : Waiter}
    {l : List WaitReturn} (begun : s.place ≠ .registering) (begun' : p ≠ .registering)
    (outside : p ≠ .waiting → w = .outside)
    (asking : p = .waiting → w = .checking plan.get ∨ w = .asleep plan.get ∨
      w = .reading ∧ plan.get = true)
    (seen : plan.get = true → p = .joining ∨ p = .joined ∨ p = .passed →
      ∃ value, plan.outcome = .fulfill value)
    (exited : p = .joined ∨ p = .passed → s.thread = .exited) :
    Tidy plan { s with
      future := { s.future with
        waiter := Function.update s.future.waiter 0 w, returns := l }
      place := p } :=
  { tidy with
    young := fun same => absurd same begun'
    full := fun _ => tidy.full begun
    outside := fun other => by simpa using outside other
    asking := fun here => by simpa using asking here
    apart := fun other => by simpa using tidy.apart other
    getting := fun here => by simpa using tidy.getting here
    seen := seen
    exited := exited }

/-- The thread moves in the `future_get` of a callback, into it or out of it. -/
theorem Tidy.callback (tidy : Tidy plan s) {p : ThreadPlace} {w : Waiter}
    {l : List WaitReturn} {r : Addr → Ptr} {c : Addr}
    (inCallback : s.InCallback c)
    (settler : settlerAt s.future p) (apart : p ≠ .getting → w = .outside)
    (getting : p = .getting → w = .checking true ∨ w = .reading)
    (stored : ∀ c ∈ s.future.executedBy 0,
      InCallback { s with thread := p } c ∨ ∃ value, plan.outcome = .fulfill value ∧
        ∀ record i, s.future.records c = some record → record.args = some i → r i = value) :
    Tidy plan { s with
      future := { s.future with
        waiter := Function.update s.future.waiter 1 w, returns := l }
      thread := p
      result := r } := by
  have begun : s.thread ≠ .ready := by
    rcases inCallback.1 with here | here <;> simp [here]
  have staying : s.thread ≠ .exited := by
    rcases inCallback.1 with here | here <;> simp [here]
  exact { tidy with
    young := fun here => absurd (tidy.young here) begun
    settled := fun _ => tidy.settled begun
    settler := by cases p <;> exact settler
    outside := fun other => by simpa using tidy.outside other
    asking := fun here => by simpa using tidy.asking here
    apart := fun other => by simpa using apart other
    getting := fun here => by simpa using getting here
    stored := stored
    exited := fun here => absurd (tidy.exited here) staying }

/-- An assertion of `future_get` has failed. -/
theorem Tidy.abort (tidy : Tidy plan s) (rejects : ∃ rc, plan.outcome = .reject rc)
    (gets : 0 < plan.callbacks ∨ plan.get = true) :
    Tidy plan { s with future := { s.future with aborted := true } } :=
  { tidy with gone := fun _ => ⟨rejects, gets⟩ }

/-- Settled, the future shows what the thread has given it. -/
theorem Tidy.shows (tidy : Tidy plan s) (run : (machine plan).Run past s)
    (begun : s.thread ≠ .ready) :
    futureGet s.future.future = plan.outcome.value ∧ s.future.future.isResolved = true ∧
      s.future.future.isFulfilled = plan.outcome.value.isSome ∧
      s.future.future.rejectedRc = plan.outcome.code.getD 0 := by
  have shows := SharedFuture.run_showsLatest (run_future run)
  rw [tidy.settled begun] at shows
  obtain ⟨resolved, fulfilled, rejectedCode, get⟩ := shows
  refine ⟨?_, resolved, ?_, ?_⟩
  · rw [get]
    cases plan.outcome <;> rfl
  · refine fulfilled.trans ?_
    cases plan.outcome <;> rfl
  · refine rejectedCode.trans ?_
    cases plan.outcome <;> rfl

/-- A settled future has been settled by the thread. -/
theorem Tidy.begun (tidy : Tidy plan s) (run : (machine plan).Run past s)
    (resolved : s.future.future.isResolved = true) : s.thread ≠ .ready := by
  intro ready
  obtain ⟨order, walks⟩ := SharedFuture.run_walks (run_future run)
  have none_ : s.future.outcomes = [] := by simpa [ready, settlerAt] using tidy.settler
  exact walks.resolved.1 resolved none_

theorem value_none {o : Outcome} (none_ : o.value = none) : ∃ rc, o = .reject rc := by
  cases o with
  | fulfill value => cases none_
  | reject rc => exact ⟨rc, rfl⟩

theorem value_some {o : Outcome} {value : Ptr} (some_ : o.value = some value) :
    o = .fulfill value := by
  cases o with
  | fulfill value' =>
      cases some_
      rfl
  | reject rc => cases some_

/-- The thread settles the promise. -/
theorem Tidy.settle (tidy : Tidy plan s) (begun : s.place ≠ .registering)
    (ready : s.thread = .ready) {order : List Addr} (walks : s.future.Walks order) :
    Tidy plan { s with future := s.future.settleStep plan.outcome, thread := .settling } := by
  have none_ : s.future.outcomes = [] := by simpa [ready, settlerAt] using tidy.settler
  have idle := walks.pending 0 (by simp [none_])
  have unrun : s.future.executedBy 0 = [] := by
    have walked := walks.walked 0
    rw [idle] at walked
    exact walked.2
  have awake := tidy.apart (by simp [ready])
  exact { tidy with
    young := fun same => absurd same begun
    settled := fun _ => by simp [SharedFuture.settleStep, none_]
    settler := by simp [settlerAt, SharedFuture.settleStep, none_]
    loaded := fun head read => by
      simpa [SharedFuture.settleStep] using tidy.loaded head read
    outside := fun other => by
      simp [SharedFuture.settleStep, condBroadcast, tidy.outside other]
    asking := fun here => by
      rcases tidy.asking here with place | place | ⟨place, get⟩ <;>
        simp [SharedFuture.settleStep, condBroadcast, place]
      exact get
    apart := fun _ => by simp [SharedFuture.settleStep, condBroadcast, awake]
    getting := fun here => by cases here
    stored := fun c ran => by
      have ran' : c ∈ s.future.executedBy 0 := ran
      rw [unrun] at ran'
      cases ran'
    exited := fun here => by
      have exited := tidy.exited here
      rw [ready] at exited
      cases exited }

/-- No assertion of the walk fails. -/
theorem Tidy.not_fails (tidy : Tidy plan s) {order : List Addr} (walks : s.future.Walks order)
    {step : WalkStep} : ¬ s.future.AssertFails 0 step := by
  intro fails
  cases step with
  | assertResolved =>
      obtain ⟨place, unresolved⟩ := fails
      have resolved := walks.began (k := 0) (by simp [place])
      rw [futureIsResolved, resolved] at unresolved
      cases unresolved
  | execute =>
      obtain ⟨callback, record, -, present, unfit⟩ := fails
      rw [(tidy.fits callback record present).1] at unfit
      cases unfit
  | _ => exact fails

theorem Tidy.walk_alive (tidy : Tidy plan s) {order : List Addr} (walks : s.future.Walks order)
    {step : WalkStep} {future : SharedFuture TestCallback}
    (walked : s.future.walkStep 0 step = some future) : future.aborted = s.future.aborted := by
  rcases SharedFuture.walkStep_cases walked with ⟨fails, -⟩ | ⟨-, -, -, rfl⟩ | ⟨-, -, rfl⟩ |
    ⟨_, _, -, -, -, -, rfl⟩ | ⟨_, _, -, -, -, rfl⟩ | ⟨-, -, rfl⟩
  · exact absurd fails (tidy.not_fails walks)
  all_goals rfl

/-- The thread walks. -/
theorem Tidy.walk (tidy : Tidy plan s) (settling : s.thread = .settling) {order : List Addr}
    (walks : s.future.Walks order) {step : WalkStep} {future : SharedFuture TestCallback}
    (walked : s.future.walkStep 0 step = some future) :
    Tidy plan (s.after plan future (.walk step)) := by
  have begun : s.thread ≠ .ready := by simp [settling]
  have stored : ∀ c ∈ s.future.executedBy 0, ∃ value, plan.outcome = .fulfill value ∧
      ∀ record i, s.future.records c = some record → record.args = some i →
        s.result i = value := by
    intro c ran
    refine (tidy.stored c ran).resolve_left ?_
    rintro ⟨here, -⟩
    simp [settling] at here
  have staying : ¬ (s.place = .joined ∨ s.place = .passed) := by
    intro through
    have exited := tidy.exited through
    rw [settling] at exited
    cases exited
  rcases SharedFuture.walkStep_cases walked with ⟨fails, -⟩ | ⟨rfl, -, -, rfl⟩ | ⟨rfl, -, rfl⟩ |
    ⟨callback, record, rfl, -, -, -, rfl⟩ | ⟨callback, record, rfl, -, -, rfl⟩ | ⟨rfl, -, rfl⟩
  · exact absurd fails (tidy.not_fails walks)
  · exact { tidy with
      settler := by simp [settling, after, settlerAt]
      stored := fun c ran => Or.inr (stored c ran) }
  · exact { tidy with
      settler := by simp [settling, after, settlerAt]
      loaded := fun head read => by simpa using read.symm
      stored := fun c ran => Or.inr (stored c ran) }
  · -- into the callback
    exact { tidy with
      young := fun here => absurd (tidy.young here) begun
      settled := fun _ => tidy.settled begun
      settler := ⟨callback, by simp⟩
      apart := fun _ => tidy.apart (by simp [settling])
      getting := fun here => by cases here
      stored := fun c ran => by
        have ran' : c ∈ s.future.executedBy 0 ++ [callback] := by
          simpa [SharedFuture.executedBy] using ran
        rcases List.mem_append.1 ran' with earlier | last
        · exact Or.inr (stored c earlier)
        · rw [List.mem_singleton.1 last]
          exact Or.inl ⟨Or.inl rfl, by simp⟩
      exited := fun here => absurd here staying }
  · exact { tidy with
      settler := by simp [settling, after, settlerAt]
      stored := fun c ran => Or.inr (stored c ran) }
  · exact { tidy with
      young := fun here => absurd (tidy.young here) begun
      settled := fun _ => tidy.settled begun
      settler := by simp [after, settlerAt]
      apart := fun _ => tidy.apart (by simp [settling])
      getting := fun here => by cases here
      stored := fun c ran => Or.inr (stored c ran)
      exited := fun _ => rfl }

/-- The `future_get` of a callback. -/
theorem Tidy.callbackWait (tidy : Tidy plan s) (run : (machine plan).Run past s)
    (here : s.thread = .called) {future : SharedFuture TestCallback}
    (waits : s.future.waitStep 1 true = some future) :
    Tidy plan (s.after plan future .callbackWait) := by
  obtain ⟨callback, executing⟩ : ∃ callback, s.future.call 0 = .executing callback := by
    simpa [here, settlerAt] using tidy.settler
  simp only [SharedFuture.waitStep, Option.ite_none_right_eq_some, Option.some.injEq] at waits
  obtain ⟨-, rfl⟩ := waits
  have resolved : futureIsResolved s.future.future = true :=
    (tidy.shows run (by simp [here])).2.1
  simp only [after, if_pos resolved]
  refine tidy.callback (p := .getting) (c := callback) ⟨Or.inl here, executing⟩
    ⟨callback, executing⟩ (by simp) (fun _ => Or.inl rfl) ?_
  intro c ran
  refine (tidy.stored c ran).imp_left ?_
  rintro ⟨-, inside⟩
  exact ⟨Or.inr rfl, inside⟩

theorem Tidy.callbackCheck (tidy : Tidy plan s) (run : (machine plan).Run past s)
    (here : s.thread = .getting) {future : SharedFuture TestCallback}
    (checks : s.future.checkStep 1 = some future) :
    Tidy plan { s with future := future } := by
  obtain ⟨callback, executing⟩ : ∃ callback, s.future.call 0 = .executing callback := by
    simpa [here, settlerAt] using tidy.settler
  have resolved := (tidy.shows run (by simp [here])).2.1
  obtain ⟨get, place, cases_⟩ := SharedFuture.checkStep_cases checks
  have gets : get = true := by
    rcases tidy.getting here with asks | asks <;> rw [asks] at place <;> cases place
    rfl
  rcases cases_ with ⟨-, -, rfl⟩ | ⟨-, waits, -⟩ | ⟨unresolved, -⟩
  · have moved := tidy.callback (p := s.thread) (w := .reading) (l := s.future.returns)
      (r := s.result) (c := callback) ⟨Or.inr here, executing⟩ tidy.settler
      (fun other => absurd here other) (fun _ => Or.inr rfl) tidy.stored
    exact moved
  · rw [gets] at waits
    cases waits
  · rw [resolved] at unresolved
    cases unresolved

theorem Tidy.callbackGet (tidy : Tidy plan s) (run : (machine plan).Run past s)
    (here : s.thread = .getting) (alive : s.future.aborted = false)
    {future : SharedFuture TestCallback} (gets : s.future.getStep 1 = some future) :
    Tidy plan (s.after plan future .callbackGet) := by
  obtain ⟨callback, executing⟩ : ∃ callback, s.future.call 0 = .executing callback := by
    simpa [here, settlerAt] using tidy.settler
  obtain ⟨shown, -⟩ := tidy.shows run (by simp [here])
  obtain ⟨order, walks⟩ := SharedFuture.run_walks (run_future run)
  obtain ⟨record, present⟩ : ∃ record, s.future.records callback = some record := by
    have walked := walks.walked 0
    rw [executing] at walked
    obtain ⟨-, -, record, -, -, -, present, -⟩ := walked
    exact ⟨record, present⟩
  obtain ⟨-, i, early, args⟩ := tidy.fits callback record present
  obtain ⟨-, ⟨unshown, rfl⟩ | ⟨value, shown', rfl⟩⟩ := SharedFuture.getStep_cases gets
  · simp only [after, if_true]
    refine tidy.abort (value_none (shown.symm.trans unshown)) (Or.inl ?_)
    exact Nat.lt_of_lt_of_le (Nat.zero_lt_of_lt early) tidy.registered
  · have fulfilled := value_some (shown.symm.trans shown')
    have goesOn : ¬ s.future.aborted = true := by simp [alive]
    simp only [after, if_neg goesOn]
    refine tidy.callback (p := .settling) (c := callback) ⟨Or.inr here, executing⟩
      (by simp [settlerAt, executing]) (fun _ => rfl) (by simp) ?_
    have result : store s { s.future with
          waiter := Function.update s.future.waiter 1 .outside
          returns := s.future.returns ++ [⟨1, some value⟩] } =
        Function.update s.result i value := by
      simp [store, argument, executing, present, args, gotten]
    rw [result]
    intro c ran
    refine Or.inr ⟨value, fulfilled, ?_⟩
    intro record' j present' args'
    by_cases same : j = i
    · simp [same]
    · rw [Function.update_of_ne same]
      rcases tidy.stored c ran with ⟨-, inside⟩ | ⟨value', fulfilled', stored⟩
      · -- the result of this callback is the one just stored
        rw [executing, Settler.executing.injEq] at inside
        subst inside
        rw [present, Option.some.injEq] at present'
        subst present'
        rw [args, Option.some.injEq] at args'
        exact absurd args'.symm same
      · rw [fulfilled, Outcome.fulfill.injEq] at fulfilled'
        rw [stored record' j present' args', fulfilled']

/-- The test goes to `pthread_join`: what it asserts on the way holds. -/
theorem Tidy.waited (tidy : Tidy plan s) (run : (machine plan).Run past s)
    (here : s.place = .waiting) (resolved : s.future.future.isResolved = true)
    {returns : List WaitReturn} {value : Option Ptr}
    (seen : value = if plan.get then plan.outcome.value else none)
    (fulfilled : plan.get = true → ∃ value, plan.outcome = .fulfill value) :
    Tidy plan (s.waited plan { s.future with
      waiter := Function.update s.future.waiter 0 .outside, returns := returns } value) := by
  have holds : asserted plan s.future.future value = true := by
    obtain ⟨-, -, isFulfilled, rejectedRc⟩ := tidy.shows run (tidy.begun run resolved)
    cases settled : plan.outcome with
    | fulfill wanted =>
        cases get : plan.get <;> simp [asserted, settled, seen, get, Outcome.value]
    | reject rc =>
        have none_ : value = none := by
          rw [seen, settled]
          exact ite_self _
        rw [settled] at isFulfilled rejectedRc
        simp [asserted, settled, none_, futureIsResolved, resolved, futureIsFulfilled, isFulfilled,
          futureRejectedCode, rejectedRc, Outcome.value, Outcome.code]
  rw [FutureTest.waited, if_pos holds]
  refine tidy.ask (by simp [here]) (by simp) (fun _ => rfl) (by simp) ?_ (by simp)
  exact fun gets _ => fulfilled gets

theorem Tidy.check (tidy : Tidy plan s) (run : (machine plan).Run past s)
    (here : s.place = .waiting) {future : SharedFuture TestCallback}
    (checks : s.future.checkStep 0 = some future) : Tidy plan (s.after plan future .check) := by
  have begun : s.place ≠ .registering := by simp [here]
  obtain ⟨get, place, cases_⟩ := SharedFuture.checkStep_cases checks
  obtain rfl : get = plan.get := by
    rcases tidy.asking here with asks | asks | ⟨asks, -⟩ <;> rw [asks] at place <;> cases place
    rfl
  rcases cases_ with ⟨-, gets, rfl⟩ | ⟨resolved, waits, rfl⟩ | ⟨-, rfl⟩
  · have moved := tidy.ask (p := .waiting) (w := .reading) (l := s.future.returns) begun (by simp)
      (by simp) (fun _ => Or.inr (Or.inr ⟨rfl, gets⟩)) (by simp) (by simp)
    simpa [after, here] using moved
  · simp only [after, Function.update_self, if_true]
    exact tidy.waited run here resolved (by simp [waits]) (fun gets => by simp [gets] at waits)
  · have moved := tidy.ask (p := .waiting) (w := .asleep plan.get) (l := s.future.returns) begun
      (by simp) (by simp) (fun _ => Or.inr (Or.inl rfl)) (by simp) (by simp)
    simpa [after, here] using moved

theorem Tidy.get (tidy : Tidy plan s) (run : (machine plan).Run past s)
    (here : s.place = .waiting) (alive : s.future.aborted = false)
    {future : SharedFuture TestCallback} (gets : s.future.getStep 0 = some future) :
    Tidy plan (s.after plan future .get) := by
  obtain ⟨reading, read⟩ := SharedFuture.getStep_cases gets
  have resolved := (SharedFuture.run_waits (run_future run)).reading 0 reading
  obtain ⟨shown, -⟩ := tidy.shows run (tidy.begun run resolved)
  have get : plan.get = true := by
    rcases tidy.asking here with asks | asks | ⟨-, get⟩
    · rw [asks] at reading
      cases reading
    · rw [asks] at reading
      cases reading
    · exact get
  rcases read with ⟨unshown, rfl⟩ | ⟨value, shown', rfl⟩
  · simp only [after, if_true]
    exact tidy.abort (value_none (shown.symm.trans unshown)) (Or.inr get)
  · have fulfilled := shown.symm.trans shown'
    have goesOn : ¬ s.future.aborted = true := by simp [alive]
    simp only [after, if_neg goesOn]
    refine tidy.waited run here resolved ?_ (fun _ => ⟨value, value_some fulfilled⟩)
    simp [gotten, get, fulfilled]

/-- The thread has returned: it has stored the value in every result. -/
theorem Tidy.results (tidy : Tidy plan s) (run : (machine plan).Run past s)
    (begun : s.place ≠ .registering) (exited : s.thread = .exited) :
    ∀ i < plan.callbacks, ∃ value, plan.outcome = .fulfill value ∧ s.result i = value := by
  intro i early
  obtain ⟨order, walks⟩ := SharedFuture.run_walks (run_future run)
  obtain ⟨c, record, present, args⟩ := tidy.linked i (by rw [tidy.full begun]; exact early)
  have returned : s.future.call 0 = .returned := by simpa [exited, settlerAt] using tidy.settler
  obtain ⟨head, read, chain⟩ := walks.returned_snapshot returned
  rw [tidy.loaded head read] at chain
  -- nothing has been registered since the walk read the list head
  have all : s.future.executedBy 0 = order := chain.unique walks.chain
  have ran : c ∈ s.future.executedBy 0 := by
    rw [all]
    exact walks.present c (by simp [present])
  rcases tidy.stored c ran with ⟨inside | inside, -⟩ | ⟨value, fulfilled, stored⟩
  · simp [exited] at inside
  · simp [exited] at inside
  · exact ⟨value, fulfilled, stored record i present args⟩

theorem Tidy.join (tidy : Tidy plan s) (run : (machine plan).Run past s)
    (here : s.place = .joining) (exited : s.thread = .exited) :
    Tidy plan (s.after plan s.future .join) := by
  have begun : s.place ≠ .registering := by simp [here]
  have results := tidy.results run begun exited
  have holds : resultsHold plan s.result = true := by
    cases settled : plan.outcome with
    | fulfill wanted =>
        simp only [resultsHold, settled, decide_eq_true_eq]
        intro i early
        obtain ⟨value, fulfilled, stored⟩ := results i early
        rw [settled, Outcome.fulfill.injEq] at fulfilled
        exact stored.trans fulfilled.symm
    | reject rc => simp [resultsHold, settled]
  simp only [after, if_pos holds]
  exact { tidy with
    young := fun same => by cases same
    full := fun _ => tidy.full begun
    outside := fun _ => tidy.outside (by simp [here])
    asking := fun same => by cases same
    seen := fun get _ => tidy.seen get (Or.inl here)
    exited := fun _ => exited }

theorem Tidy.spurious (tidy : Tidy plan s) (here : s.place = .waiting)
    {future : SharedFuture TestCallback} (wakes : s.future.spuriousStep 0 = some future) :
    Tidy plan { s with future := future } := by
  simp only [SharedFuture.spuriousStep] at wakes
  split at wakes
  · rename_i get asleep
    cases wakes
    obtain rfl : get = plan.get := by
      rcases tidy.asking here with asks | asks | ⟨asks, -⟩ <;> rw [asks] at asleep <;> cases asleep
      rfl
    have moved := tidy.ask (p := .waiting) (w := .checking plan.get) (l := s.future.returns)
      (by simp [here]) (by simp) (by simp) (fun _ => Or.inl rfl) (by simp) (by simp)
    simpa [here] using moved
  · cases wakes

/-- One step keeps the two threads in step with the future. -/
theorem Tidy.step (tidy : Tidy plan s) (run : (machine plan).Run past s)
    (stepped : FutureTest.step plan s a = some t) : Tidy plan t := by
  obtain ⟨order, walks⟩ := SharedFuture.run_walks (run_future run)
  obtain ⟨-, alive, -⟩ := step_cases stepped
  cases step_takes stepped with
  | register place more added => exact tidy.register walks place more added
  | create place all =>
      exact { tidy with
        young := fun same => by cases same
        full := fun _ => all
        outside := fun _ => tidy.outside (by simp [place])
        asking := fun same => by cases same
        seen := fun _ through => by simp [after] at through
        exited := fun through => by simp [after] at through }
  | wait place waits =>
      simp only [SharedFuture.waitStep, Option.ite_none_right_eq_some, Option.some.injEq] at waits
      obtain ⟨-, rfl⟩ := waits
      exact tidy.ask (p := .waiting) (by simp [place]) (by simp) (by simp) (fun _ => Or.inl rfl)
        (by simp) (by simp)
  | check place checks => exact tidy.check run place checks
  | spurious place wakes => exact tidy.spurious place wakes
  | get place gets => exact tidy.get run place alive gets
  | join place exited => exact tidy.join run place exited
  | destroy place =>
      exact { tidy with
        young := fun same => by cases same
        full := fun _ => tidy.full (by simp [place])
        outside := fun _ => tidy.outside (by simp [place])
        asking := fun same => by cases same
        seen := fun get _ => tidy.seen get (Or.inr (Or.inl place))
        exited := fun _ => tidy.exited (Or.inl place) }
  | settle begun ready => exact tidy.settle begun ready walks
  | walk settling walked => exact tidy.walk settling walks walked
  | callbackWait called waits => exact tidy.callbackWait run called waits
  | callbackCheck getting checks => exact tidy.callbackCheck run getting checks
  | callbackGet getting gets => exact tidy.callbackGet run getting alive gets

theorem run_tidy (run : (machine plan).Run past s) : Tidy plan s := by
  induction run with
  | none => exact start_tidy
  | step before stepped ih => exact ih.step before stepped

/-! ## It ends -/

theorem waited_registered (future : SharedFuture TestCallback) (value : Option Ptr) :
    (s.waited plan future value).registered = s.registered := by
  unfold waited
  split <;> rfl

/-- The test counts what it has registered. -/
theorem after_registered (future : SharedFuture TestCallback) (a : FutureTestAction) :
    (s.after plan future a).registered =
      ((s.futureAction plan a).bind SharedFuture.registers).toList.length + s.registered := by
  cases a with
  | register link => exact Nat.add_comm ..
  | walk step => cases step <;> exact (Nat.zero_add _).symm
  | check | get =>
      simp only [after]
      split <;> simp [futureAction, SharedFuture.registers, waited_registered]
  | join | callbackWait | callbackGet =>
      simp only [after]
      split <;> exact (Nat.zero_add _).symm
  | _ => exact (Nat.zero_add _).symm

theorem run_order (run : (machine plan).Run past s) :
    ∃ order, s.future.Walks order ∧ order.length = s.registered := by
  induction run with
  | none => exact ⟨[], SharedFuture.start_walks, rfl⟩
  | @step past s a t before stepped ih =>
      obtain ⟨order, walks, counted⟩ := ih
      obtain ⟨-, -, -, ⟨named, rfl⟩ | ⟨b, future, named, moved, rfl⟩⟩ := step_cases stepped
      · exact ⟨order, by simpa using walks, by simp [after_registered, named, counted]⟩
      · exact ⟨_, by simpa using walks.step_registers moved,
          by simp [after_registered, named, counted]⟩

/-- The thread runs each callback once. -/
theorem executed_le (run : (machine plan).Run past s) :
    (s.future.executedBy 0).length ≤ plan.callbacks := by
  obtain ⟨order, walks, counted⟩ := run_order run
  have tidy := run_tidy run
  by_cases none_ : s.future.executedBy 0 = []
  · simp [none_]
  · obtain ⟨head, rest, read, chain⟩ := walks.reading 0 none_
    rw [tidy.loaded head read] at chain
    have all := congrArg List.length (chain.unique walks.chain)
    rw [List.length_append, counted] at all
    have bound := tidy.registered
    omega

/-- What the test has to do. -/
def testLeft (plan : FutureTestPlan) (s : FutureTest) : Nat :=
  match s.place with
  | .registering => (plan.callbacks - s.registered) + 7
  | .created => 6
  | .waiting => (s.future.waiter 0).left s.future.future.isResolved + 2
  | .joining => 2
  | .joined => 1
  | .passed => 0

/-- What a walk has to do, with a `future_get` in each callback to come. -/
def walkLeft (plan : FutureTestPlan) (future : SharedFuture TestCallback) : Nat :=
  (2 * plan.callbacks + 3 - (future.call 0).stepsTaken (future.executedBy 0).length) +
    4 * (plan.callbacks - (future.executedBy 0).length)

/-- What the thread has to do. -/
def threadLeft (plan : FutureTestPlan) (s : FutureTest) : Nat :=
  match s.thread with
  | .ready => 6 * plan.callbacks + 4
  | .settling => walkLeft plan s.future
  | .called => walkLeft plan s.future + 4
  | .getting => walkLeft plan s.future + (s.future.waiter 1).left s.future.future.isResolved
  | .exited => 0

def left (plan : FutureTestPlan) (s : FutureTest) : Nat :=
  if s.future.aborted then 0 else testLeft plan s + threadLeft plan s

/-- What the thread does brings the test no farther from its end. -/
theorem testLeft_le {future : SharedFuture TestCallback}
    (still : s.future.Undisturbed future) {thread : ThreadPlace} {result : Addr → Ptr} :
    testLeft plan { s with future := future, thread := thread, result := result } ≤
      testLeft plan s := by
  have less := still.left 0
  cases place : s.place <;> simp only [testLeft, place] <;> omega

/-- What the test does in its wait is nothing to the thread. -/
theorem threadLeft_eq {p : TestPlace} {w : Waiter} {l : List WaitReturn} :
    threadLeft plan { s with
      future := { s.future with
        waiter := Function.update s.future.waiter 0 w, returns := l }
      place := p } = threadLeft plan s := by
  cases here : s.thread <;> simp [threadLeft, here, walkLeft, SharedFuture.executedBy]

/-- A step of the walk. -/
theorem threadLeft_walk (run : (machine plan).Run past s) {step : WalkStep}
    (settling : s.thread = .settling) {future : SharedFuture TestCallback}
    (moved : s.future.step (.walk 0 step) = some future)
    (stepped : (machine plan).step s (.walk step) = some (s.after plan future (.walk step))) :
    threadLeft plan (s.after plan future (.walk step)) < threadLeft plan s := by
  obtain ⟨order, walks, -⟩ := run_order run
  have bound := executed_le (run.step stepped)
  rw [after_future] at bound
  obtain ⟨alive, walked⟩ := Option.ite_none_left_eq_some.1 moved
  have alive' : future.aborted = false :=
    ((run_tidy run).walk_alive walks walked).trans (eq_false_of_ne_true alive)
  have count := SharedFuture.step_stepsTaken (k := 0) walks moved alive'
  simp only [SharedFuture.walks, decide_true, Bool.toNat_true] at count
  have top := Settler.stepsTaken_le (future.executedBy 0).length (future.call 0)
  have here : threadLeft plan s = walkLeft plan s.future := by simp [threadLeft, settling]
  have kept : future.executed = s.future.executed →
      future.executedBy 0 = s.future.executedBy 0 := by
    intro same
    rw [SharedFuture.executedBy, SharedFuture.executedBy, same]
  rw [here]
  rcases SharedFuture.walkStep_cases walked with ⟨fails, -⟩ | ⟨rfl, -, -, same⟩ | ⟨rfl, -, same⟩ |
    ⟨callback, _, rfl, -, -, -, same⟩ | ⟨_, _, rfl, -, -, same⟩ | ⟨rfl, -, same⟩
  · exact absurd fails ((run_tidy run).not_fails walks)
  · have ran := kept (by rw [same])
    simp only [after, threadLeft, settling, walkLeft, ran] at bound count top ⊢
    omega
  · have ran := kept (by rw [same])
    simp only [after, threadLeft, settling, walkLeft, ran] at bound count top ⊢
    omega
  · -- the callback that it runs has its `future_get` to come
    have ran : (future.executedBy 0).length = (s.future.executedBy 0).length + 1 := by
      simp [same, SharedFuture.executedBy]
    simp only [after, threadLeft, walkLeft, ran] at bound count top ⊢
    omega
  · have ran := kept (by rw [same])
    simp only [after, threadLeft, settling, walkLeft, ran] at bound count top ⊢
    omega
  · have ran := kept (by rw [same])
    simp only [after, threadLeft, walkLeft, ran] at bound count top ⊢
    omega

/-- Where an assertion has failed nothing is left. -/
theorem left_lt (alive : s.future.aborted = false)
    (less : t.future.aborted = false →
      testLeft plan t + threadLeft plan t < testLeft plan s + threadLeft plan s)
    (some_ : t.future.aborted = true → 0 < testLeft plan s + threadLeft plan s) :
    left plan t < left plan s := by
  have here : left plan s = testLeft plan s + threadLeft plan s := by simp [left, alive]
  rw [here]
  cases gone : t.future.aborted with
  | false => simpa [left, gone] using less gone
  | true => simpa [left, gone] using some_ gone

/-- The test moves in its `future_get` or `future_wait`, or out of it. -/
theorem left_ask (plan : FutureTestPlan) (alive : s.future.aborted = false) {p : TestPlace}
    {w : Waiter} {l : List WaitReturn}
    (less : testLeft plan { s with
      future := { s.future with
        waiter := Function.update s.future.waiter 0 w, returns := l }
      place := p } < testLeft plan s) :
    left plan { s with
      future := { s.future with
        waiter := Function.update s.future.waiter 0 w, returns := l }
      place := p } < left plan s := by
  refine left_lt alive (fun _ => ?_) (fun gone => ?_)
  · rw [threadLeft_eq]
    exact Nat.add_lt_add_right less _
  · exact absurd gone (by simp [alive])

/-- The thread moves in the `future_get` of a callback, or out of it. -/
theorem left_callback (plan : FutureTestPlan) (alive : s.future.aborted = false)
    {p : ThreadPlace} {w : Waiter} {l : List WaitReturn} {r : Addr → Ptr}
    (less : threadLeft plan { s with
      future := { s.future with
        waiter := Function.update s.future.waiter 1 w, returns := l }
      thread := p
      result := r } < threadLeft plan s) :
    left plan { s with
      future := { s.future with
        waiter := Function.update s.future.waiter 1 w, returns := l }
      thread := p
      result := r } < left plan s := by
  refine left_lt alive (fun _ => ?_) (fun gone => ?_)
  · have same : testLeft plan { s with
        future := { s.future with
          waiter := Function.update s.future.waiter 1 w, returns := l }
        thread := p
        result := r } = testLeft plan s := by
      cases here : s.place <;> simp [testLeft, here]
    rw [same]
    exact Nat.add_lt_add_left less _
  · exact absurd gone (by simp [alive])

theorem left_waited (alive : s.future.aborted = false) (here : s.place = .waiting)
    (inside : s.future.waiter 0 ≠ .outside) {returns : List WaitReturn} {value : Option Ptr}
    (going : (s.waited plan { s.future with
      waiter := Function.update s.future.waiter 0 .outside, returns := returns } value).failed =
        false) :
    left plan (s.waited plan { s.future with
      waiter := Function.update s.future.waiter 0 .outside, returns := returns } value) <
      left plan s := by
  unfold waited at going ⊢
  split at going
  · rename_i holds
    rw [if_pos holds]
    refine left_ask plan alive ?_
    simp only [testLeft, here]
    cases place : s.future.waiter 0 with
    | outside => exact absurd place inside
    | checking get => cases s.future.future.isResolved <;> simp [Waiter.left]
    | _ => simp [Waiter.left]
  · cases going

/-- **Every step but a spurious wake-up brings the test nearer to its end.** -/
theorem spends (plan : FutureTestPlan) :
    (machine plan).Spends (fun s => ∃ past, (machine plan).Run past s) (fun a => own a = true)
      (left plan) := by
  rintro s a t ⟨past, run⟩ isOwn stepped
  have onward := run.step stepped
  refine ⟨⟨_, onward⟩, ?_⟩
  have tidy := run_tidy run
  have going := (run_tidy onward).going
  obtain ⟨-, alive, -⟩ := step_cases stepped
  have goesOn : ¬ s.future.aborted = true := by simp [alive]
  cases step_takes stepped with
  | register place more added =>
      obtain ⟨-, rfl⟩ := SharedFuture.addCallbackStep_cases added
      refine left_lt alive (fun _ => ?_) fun gone => absurd gone goesOn
      simp only [after, testLeft, threadLeft, place, tidy.young place]
      omega
  | create place | destroy place =>
      refine left_lt alive (fun _ => ?_) fun gone => absurd gone goesOn
      simp [after, testLeft, threadLeft, place]
  | wait place waits =>
      simp only [SharedFuture.waitStep, Option.ite_none_right_eq_some, Option.some.injEq] at waits
      obtain ⟨-, rfl⟩ := waits
      refine left_ask plan (p := .waiting) alive ?_
      simp only [testLeft, place, Function.update_self, Waiter.left]
      split <;> omega
  | check here checks =>
      obtain ⟨get, place, ⟨resolved, -, rfl⟩ | ⟨-, -, rfl⟩ | ⟨unresolved, rfl⟩⟩ :=
        SharedFuture.checkStep_cases checks
      · have less := left_ask plan (p := .waiting) (w := .reading) (l := s.future.returns) alive
          (by simp [testLeft, here, Waiter.left, place, resolved])
        simpa [after, here] using less
      · simp only [after, Function.update_self, if_true] at going ⊢
        exact left_waited alive here (by simp [place]) going
      · have less := left_ask plan (p := .waiting) (w := .asleep get) (l := s.future.returns) alive
          (by simp [testLeft, here, Waiter.left, place, unresolved])
        simpa [after, here] using less
  | spurious => cases isOwn
  | get here gets =>
      obtain ⟨reading, ⟨-, rfl⟩ | ⟨value, -, rfl⟩⟩ := SharedFuture.getStep_cases gets
      · refine left_lt alive (fun gone => by simp [after] at gone) fun _ => ?_
        simp only [testLeft, here]
        omega
      · simp only [after, if_neg goesOn] at going ⊢
        exact left_waited alive here (by simp [reading]) going
  | join here =>
      simp only [after] at going ⊢
      split at going
      · rename_i holds
        rw [if_pos holds]
        refine left_lt alive (fun _ => ?_) fun gone => absurd gone goesOn
        simp [testLeft, threadLeft, here]
      · cases going
  | settle begun ready =>
      have still : s.future.Undisturbed (s.future.settleStep plan.outcome) :=
        SharedFuture.undisturbed_of_step (a := .settle plan.outcome) rfl
          (by simp [SharedFuture.step, alive])
      have none_ : s.future.outcomes = [] := by simpa [ready, settlerAt] using tidy.settler
      refine left_lt alive (fun _ => ?_) fun gone => absurd gone goesOn
      refine Nat.add_lt_add_of_le_of_lt (testLeft_le still) ?_
      simp only [after, threadLeft, walkLeft, ready, SharedFuture.settleStep, none_,
        List.length_nil, Function.update_self, Settler.stepsTaken]
      omega
  | @walk step future settling walked =>
      obtain ⟨order, walks⟩ := SharedFuture.run_walks (run_future run)
      have moved : s.future.step (.walk 0 step) = some future := by
        simp [SharedFuture.step, alive, walked]
      have still := SharedFuture.undisturbed_of_step rfl moved
      have less := threadLeft_walk run settling moved stepped
      refine left_lt alive (fun _ => Nat.add_lt_add_of_le_of_lt ?_ less) fun gone => ?_
      · cases step <;> exact testLeft_le still
      · rw [after_future, tidy.walk_alive walks walked, alive] at gone
        cases gone
  | callbackWait here waits =>
      simp only [SharedFuture.waitStep, Option.ite_none_right_eq_some, Option.some.injEq] at waits
      obtain ⟨-, rfl⟩ := waits
      have resolved := (tidy.shows run (by simp [here])).2.1
      simp only [after] at going ⊢
      split at going
      · rename_i holds
        rw [if_pos holds]
        refine left_callback plan alive ?_
        simp [threadLeft, here, walkLeft, SharedFuture.executedBy, Waiter.left, resolved]
      · cases going
  | callbackCheck here checks =>
      have resolved := (tidy.shows run (by simp [here])).2.1
      have less : ∀ {w l}, (w : Waiter).left true < (s.future.waiter 1).left true →
          left plan { s with future := { s.future with
            waiter := Function.update s.future.waiter 1 w, returns := l } } < left plan s := by
        intro w l less
        refine left_callback plan (p := s.thread) (r := s.result) alive ?_
        simpa [threadLeft, here, walkLeft, SharedFuture.executedBy, resolved] using less
      obtain ⟨get, place, ⟨-, -, rfl⟩ | ⟨-, waits, -⟩ | ⟨unresolved, -⟩⟩ :=
        SharedFuture.checkStep_cases checks
      · exact less (by simp [Waiter.left, place])
      · rcases tidy.getting here with asks | asks <;> rw [asks] at place <;> cases place
        cases waits
      · rw [resolved] at unresolved
        cases unresolved
  | callbackGet here gets =>
      obtain ⟨reading, ⟨-, rfl⟩ | ⟨value, -, rfl⟩⟩ := SharedFuture.getStep_cases gets
      · refine left_lt alive (fun gone => by simp [after] at gone) fun _ => ?_
        simp only [threadLeft, here, reading, Waiter.left]
        omega
      · simp only [after, if_neg goesOn]
        refine left_callback plan alive ?_
        simp [threadLeft, here, walkLeft, SharedFuture.executedBy, Waiter.left, reading]

theorem test_ends (run : (machine plan).Run past s) :
    (machine plan).Ends (fun a => own a = true) s := (spends plan).ends ⟨past, run⟩

/-! ## Where it ends -/

/-- Where the test has ended, a thread that is to take a step is kept from it by the
future. -/
theorem kept_by_future (run : (machine plan).Run past s) (alive : s.future.aborted = false)
    (halted : (machine plan).Stuck (fun a => own a = true) s) (isOwn : own a = true)
    (enabled : s.enabled plan a = true) :
    ∃ b, s.futureAction plan a = some b ∧ s.future.step b = none := by
  have none_ : step plan s a = none := halted a isOwn
  simp only [step, (run_tidy run).going, alive, enabled, Bool.or_self, Bool.not_true,
    Bool.false_eq_true, if_false] at none_
  cases named : s.futureAction plan a with
  | none => simp [named] at none_
  | some b => exact ⟨b, rfl, by simpa [named] using none_⟩

theorem begun_of_halted (run : (machine plan).Run past s) (alive : s.future.aborted = false)
    (halted : (machine plan).Stuck (fun a => own a = true) s) : s.place ≠ .registering := by
  intro here
  rcases Nat.lt_or_eq_of_le (run_tidy run).registered with more | all
  · obtain ⟨link, future, added, -⟩ := SharedFuture.exists_addCallback (run_future run) alive
      (some .testCallback) (some s.registered)
    obtain ⟨b, named, none_⟩ := kept_by_future run alive halted (a := .register link) rfl
      (by simp [enabled, here, more])
    cases named
    rw [added] at none_
    cases none_
  · obtain ⟨b, named, -⟩ := kept_by_future run alive halted (a := .create) rfl
      (by simp [enabled, here, all])
    cases named

theorem exited_of_halted (run : (machine plan).Run past s) (alive : s.future.aborted = false)
    (halted : (machine plan).Stuck (fun a => own a = true) s) : s.thread = .exited := by
  have begun := begun_of_halted run alive halted
  have tidy := run_tidy run
  cases here : s.thread with
  | ready =>
      obtain ⟨b, named, none_⟩ := kept_by_future run alive halted (a := .settle) rfl
        (by simp [enabled, here, begun])
      cases named
      simp [SharedFuture.step, alive] at none_
  | settling =>
      obtain ⟨order, walks⟩ := SharedFuture.run_walks (run_future run)
      have settled := tidy.settled (by simp [here])
      have active := SharedFuture.run_begun (run_future run) (k := 0) (by simp [settled])
      obtain ⟨step, future, walked⟩ := walks.exists_walkStep active
        (by simpa [here, settlerAt] using tidy.settler)
      obtain ⟨b, named, none_⟩ := kept_by_future run alive halted (a := .walk step) rfl
        (by simp [enabled, here])
      cases named
      simp [SharedFuture.step, alive, walked] at none_
  | called =>
      have outside := tidy.apart (by simp [here])
      obtain ⟨b, named, none_⟩ := kept_by_future run alive halted (a := .callbackWait) rfl
        (by simp [enabled, here])
      cases named
      simp [SharedFuture.step, alive, SharedFuture.waitStep, outside] at none_
  | getting =>
      rcases tidy.getting here with checking | reading
      · obtain ⟨b, named, none_⟩ := kept_by_future run alive halted (a := .callbackCheck) rfl
          (by simp [enabled, here])
        cases named
        obtain ⟨future, checked, -⟩ := SharedFuture.exists_check alive checking
        rw [checked] at none_
        cases none_
      · obtain ⟨b, named, none_⟩ := kept_by_future run alive halted (a := .callbackGet) rfl
          (by simp [enabled, here])
        cases named
        simp only [SharedFuture.step, alive, SharedFuture.getStep, reading] at none_
        cases got : futureGet s.future.future <;> simp [got] at none_
  | exited => rfl

/-- Nothing but a failed assertion keeps the test from its end. -/
theorem passed_of_halted (run : (machine plan).Run past s) (alive : s.future.aborted = false)
    (halted : (machine plan).Stuck (fun a => own a = true) s) : s.place = .passed := by
  have tidy := run_tidy run
  have exited := exited_of_halted run alive halted
  cases here : s.place with
  | registering => exact absurd here (begun_of_halted run alive halted)
  | created =>
      have outside := tidy.outside (by simp [here])
      obtain ⟨b, named, none_⟩ := kept_by_future run alive halted (a := .wait) rfl
        (by simp [enabled, here])
      cases named
      simp [SharedFuture.step, alive, SharedFuture.waitStep, outside] at none_
  | waiting =>
      rcases tidy.asking here with checking | asleep | ⟨reading, -⟩
      · obtain ⟨b, named, none_⟩ := kept_by_future run alive halted (a := .check) rfl
          (by simp [enabled, here])
        cases named
        obtain ⟨future, checked, -⟩ := SharedFuture.exists_check alive checking
        rw [checked] at none_
        cases none_
      · -- the thread has settled the promise, and has woken the test
        have unresolved := (SharedFuture.run_waits (run_future run)).asleep 0 _ asleep
        have resolved := (tidy.shows run (by simp [exited])).2.1
        rw [unresolved] at resolved
        cases resolved
      · obtain ⟨b, named, none_⟩ := kept_by_future run alive halted (a := .get) rfl
          (by simp [enabled, here])
        cases named
        simp only [SharedFuture.step, alive, SharedFuture.getStep, reading] at none_
        cases got : futureGet s.future.future <;> simp [got] at none_
  | joining =>
      obtain ⟨b, named, -⟩ := kept_by_future run alive halted (a := .join) rfl
        (by simp [enabled, here, exited])
      cases named
  | joined =>
      obtain ⟨b, named, -⟩ := kept_by_future run alive halted (a := .destroy) rfl
        (by simp [enabled, here])
      cases named
  | passed => rfl

/-- **What becomes of a test of one future**, in any interleaving: its own assertions hold
and its steps end.  Where they have ended it is through exactly if the thread fulfils, or
if nobody calls `future_get`; otherwise an assertion of `future_get` has ended the process.
And once it has destroyed the future nothing touches that again. -/
theorem through_iff (run : (machine plan).Run past s) :
    s.failed = false ∧ (machine plan).Ends (fun a => own a = true) s ∧
      ((machine plan).Stuck (fun a => own a = true) s →
        (s.place = .passed ↔
          (∃ value, plan.outcome = .fulfill value) ∨ plan.callbacks = 0 ∧ plan.get = false) ∧
        (s.place ≠ .passed → s.future.aborted = true)) ∧
      (s.place = .passed → ∀ a, (machine plan).step s a = none) := by
  have tidy := run_tidy run
  refine ⟨tidy.going, test_ends run, ?_, ?_⟩
  · intro halted
    refine ⟨⟨?_, ?_⟩, ?_⟩
    · intro passed
      by_cases gets : plan.get = true
      · exact Or.inl (tidy.seen gets (Or.inr (Or.inr passed)))
      rcases Nat.eq_zero_or_pos plan.callbacks with none_ | some_
      · exact Or.inr ⟨none_, eq_false_of_ne_true gets⟩
      · obtain ⟨value, fulfilled, -⟩ := tidy.results run (by simp [passed])
          (tidy.exited (Or.inr passed)) 0 some_
        exact Or.inl ⟨value, fulfilled⟩
    · intro fits
      refine passed_of_halted run ?_ halted
      by_contra gone
      obtain ⟨⟨rc, rejected⟩, gets⟩ := tidy.gone (Bool.eq_true_of_not_eq_false gone)
      rcases fits with ⟨value, fulfilled⟩ | ⟨none_, unasked⟩
      · rw [fulfilled] at rejected
        cases rejected
      · simp [none_, unasked] at gets
    · intro short
      by_contra alive
      exact short (passed_of_halted run (eq_false_of_ne_true alive) halted)
  · intro passed a
    have exited := tidy.exited (Or.inr passed)
    have disabled : s.enabled plan a = false := by
      cases a <;> simp [enabled, passed, exited]
    simp [machine, step, disabled]

/-- The tests of the source get through. -/
theorem through_iff_source :
    (∃ past s, (machine futureTest).Run past s ∧ s.place = .passed) ∧
      (∃ past s, (machine (promiseTestFulfilled 7)).Run past s ∧ s.place = .passed) ∧
      ∃ past s, (machine promiseTestRejected).Run past s ∧ s.place = .passed := by
  refine ⟨?_, ?_, ?_⟩
  · obtain ⟨past, s, steps, -, halted⟩ := ((spends futureTest).ends ⟨[], .none⟩).exists_stuck
    exact ⟨past, s, steps, ((through_iff steps).2.2.1 halted).1.2 (Or.inl ⟨_, rfl⟩)⟩
  · obtain ⟨past, s, steps, -, halted⟩ :=
      ((spends (promiseTestFulfilled 7)).ends ⟨[], .none⟩).exists_stuck
    exact ⟨past, s, steps, ((through_iff steps).2.2.1 halted).1.2 (Or.inl ⟨_, rfl⟩)⟩
  · obtain ⟨past, s, steps, -, halted⟩ :=
      ((spends promiseTestRejected).ends ⟨[], .none⟩).exists_stuck
    exact ⟨past, s, steps, ((through_iff steps).2.2.1 halted).1.2 (Or.inr ⟨rfl, rfl⟩)⟩

/-- With a thread that rejects, the `future_get` of the first callback ends the process. -/
example : ((machine { callbacks := 1, outcome := .reject 3, get := false }).exec
    [.register 4, .create, .wait, .check, .settle, .walk .assertResolved, .walk .load,
      .walk .execute, .callbackWait, .check, .callbackCheck, .callbackGet]).any
    (fun r => r.2.future.aborted && decide (r.2.place = .joining)) = true := by
  decide

end FutureTest

end Cfutures
