/-
# Future.Shared -- one future, its settling calls, its callbacks, its waiters

The machine for one future.  A settling call (`promise_fulfill` or
`promise_reject`) is identified by its place in the order of the settling
critical sections: call `k` is the `k`-th.  After its critical section it runs on
without the mutex, one unlocked access at a time:

    settled -> asserted -> walking p -> executing c -> walking p' -> ... -> returned

`assert (future_is_resolved (self))`, the read of `self->callbacks`, each
`callback_execute` and each read of `callback->next` are steps of their own, so
registrations and other settling calls can fall between any two of them.  A
callback is inside its function while its call is `executing` it.

`future_add_callback` is one critical section.  Waiters (`future_wait`,
`future_get`) test `is_resolved` under the mutex, sleep, and are woken by the
broadcast of a settling call or spuriously; `future_get` then reads the outcome
without the mutex.  A failed assertion ends the process (`aborted`).

`outcomes`, `loaded`, `executed` and `returns` are the record of the run: the
settling calls in order, what each read from `self->callbacks`, the callbacks run
with what `is_resolved` was then, and the waits that have returned.
-/
import Cfutures.Future.Basic
import Cfutures.Theory.Machine

namespace Cfutures

open Cfutures.Theory

set_option autoImplicit false

universe u

/-- Where a settling call is, past its critical section. -/
inductive Settler where
  | idle
  | settled
  | asserted
  | walking (callback : Ptr)
  | executing (callback : Addr)
  | returned
  deriving DecidableEq

/-- Where a thread is in `future_wait`, or in `future_get` around it. -/
inductive Waiter where
  | outside
  | checking (get : Bool)
  | asleep (get : Bool)
  | reading
  deriving DecidableEq

/-- One run of a callback: by which settling call, and what `is_resolved` was. -/
structure Execution where
  call : Nat
  callback : Addr
  resolved : Bool
  deriving DecidableEq

/-- One wait that returned, with the value if it was in a `future_get`. -/
structure WaitReturn where
  waiter : Nat
  value : Option Ptr
  deriving DecidableEq

/-- The steps of `future_execute_callbacks`. -/
inductive WalkStep where
  | assertResolved
  | load
  | execute
  | next
  | finish
  deriving DecidableEq

structure SharedFuture (φ : Type u) where
  future : Future
  records : Store Addr (Callback φ)
  call : Nat → Settler
  waiter : Nat → Waiter
  aborted : Bool
  outcomes : List Outcome
  loaded : Nat → Option Ptr
  executed : List Execution
  returns : List WaitReturn

inductive FutureAction (φ : Type u) where
  | settle (outcome : Outcome)
  | walk (call : Nat) (step : WalkStep)
  | addCallback (link : Addr) (callbackFn : Option φ) (args : Ptr)
  | wait (waiter : Nat) (get : Bool)
  | check (waiter : Nat)
  | spurious (waiter : Nat)
  | get (waiter : Nat)

/-- The actions of waiters. -/
def FutureAction.isWait {φ : Type u} : FutureAction φ → Bool
  | .wait .. | .check _ | .spurious _ | .get _ => true
  | _ => false

/-- `pthread_cond_broadcast`. -/
def condBroadcast (waiter : Nat → Waiter) : Nat → Waiter := fun w =>
  match waiter w with
  | .asleep get => .checking get
  | place => place

namespace SharedFuture

variable {φ : Type u}

def start : SharedFuture φ where
  future := futureNew
  records := Store.empty
  call := fun _ => .idle
  waiter := fun _ => .outside
  aborted := false
  outcomes := []
  loaded := fun _ => none
  executed := []
  returns := []

/-- The critical section of the next settling call. -/
def settleStep (s : SharedFuture φ) (o : Outcome) : SharedFuture φ :=
  { s with
    future := o.settle s.future
    waiter := condBroadcast s.waiter
    call := Function.update s.call s.outcomes.length .settled
    outcomes := s.outcomes ++ [o] }

/-- `future_execute_callbacks`, one access at a time. -/
def walkStep (s : SharedFuture φ) (k : Nat) : WalkStep → Option (SharedFuture φ)
  | .assertResolved =>
      if s.call k = .settled then
        if futureIsResolved s.future then
          some { s with call := Function.update s.call k .asserted }
        else some { s with aborted := true }
      else none
  | .load =>
      if s.call k = .asserted then
        some { s with
          call := Function.update s.call k (.walking s.future.callbacks)
          loaded := Function.update s.loaded k (some s.future.callbacks) }
      else none
  | .execute =>
      match s.call k with
      | .walking (some callback) =>
          (s.records callback).map fun record =>
            if callbackExecutable record then
              { s with
                call := Function.update s.call k (.executing callback)
                executed := s.executed ++ [⟨k, callback, futureIsResolved s.future⟩] }
            else { s with aborted := true }
      | _ => none
  | .next =>
      match s.call k with
      | .executing callback =>
          (s.records callback).map fun record =>
            { s with call := Function.update s.call k (.walking record.next) }
      | _ => none
  | .finish =>
      if s.call k = .walking none then
        some { s with call := Function.update s.call k .returned }
      else none

def addCallbackStep (s : SharedFuture φ) (link : Addr) (callbackFn : Option φ) (args : Ptr) :
    Option (SharedFuture φ) :=
  if (s.records link).isNone then
    let added := futureAddCallback s.future s.records link callbackFn args
    some { s with future := added.1, records := added.2 }
  else none

/-- One turn of the loop of `future_wait`. -/
def checkStep (s : SharedFuture φ) (w : Nat) : Option (SharedFuture φ) :=
  match s.waiter w with
  | .checking get =>
      if futureIsResolved s.future then
        if get then some { s with waiter := Function.update s.waiter w .reading }
        else some { s with
          waiter := Function.update s.waiter w .outside
          returns := s.returns ++ [⟨w, none⟩] }
      else some { s with waiter := Function.update s.waiter w (.asleep get) }
  | _ => none

/-- The rest of `future_get`: two assertions and the value. -/
def getStep (s : SharedFuture φ) (w : Nat) : Option (SharedFuture φ) :=
  if s.waiter w = .reading then
    match futureGet s.future with
    | some value => some { s with
        waiter := Function.update s.waiter w .outside
        returns := s.returns ++ [⟨w, some value⟩] }
    | none => some { s with aborted := true }
  else none

def waitStep (s : SharedFuture φ) (w : Nat) (get : Bool) : Option (SharedFuture φ) :=
  if s.waiter w = .outside then
    some { s with waiter := Function.update s.waiter w (.checking get) }
  else none

def spuriousStep (s : SharedFuture φ) (w : Nat) : Option (SharedFuture φ) :=
  match s.waiter w with
  | .asleep get => some { s with waiter := Function.update s.waiter w (.checking get) }
  | _ => none

def step (s : SharedFuture φ) (a : FutureAction φ) : Option (SharedFuture φ) :=
  if s.aborted then none
  else
    match a with
    | .settle o => some (s.settleStep o)
    | .walk k w => s.walkStep k w
    | .addCallback link callbackFn args => s.addCallbackStep link callbackFn args
    | .wait w get => s.waitStep w get
    | .check w => s.checkStep w
    | .spurious w => s.spuriousStep w
    | .get w => s.getStep w

def machine (φ : Type u) : Machine (SharedFuture φ) (FutureAction φ) where
  start := start
  step := step

/-! ## What a step can do -/

variable {s t : SharedFuture φ} {k w : Nat}

/-- An assertion fails at this step of a walk. -/
def AssertFails (s : SharedFuture φ) (k : Nat) : WalkStep → Prop
  | .assertResolved => s.call k = .settled ∧ futureIsResolved s.future = false
  | .execute => ∃ callback record, s.call k = .walking (some callback) ∧
      s.records callback = some record ∧ callbackExecutable record = false
  | _ => False

/-- A step of a walk: it ends the process, or it moves call `k` along and does
nothing else but record it. -/
theorem walkStep_cases {step : WalkStep} (stepped : s.walkStep k step = some t) :
    (s.AssertFails k step ∧ t = { s with aborted := true }) ∨
      (step = .assertResolved ∧ s.call k = .settled ∧ s.future.isResolved = true ∧
        t = { s with call := Function.update s.call k .asserted }) ∨
      (step = .load ∧ s.call k = .asserted ∧
        t = { s with
              call := Function.update s.call k (.walking s.future.callbacks)
              loaded := Function.update s.loaded k (some s.future.callbacks) }) ∨
      (∃ callback record, step = .execute ∧ s.call k = .walking (some callback) ∧
        s.records callback = some record ∧ callbackExecutable record = true ∧
        t = { s with
              call := Function.update s.call k (.executing callback)
              executed := s.executed ++ [⟨k, callback, s.future.isResolved⟩] }) ∨
      (∃ callback record, step = .next ∧ s.call k = .executing callback ∧
        s.records callback = some record ∧
        t = { s with call := Function.update s.call k (.walking record.next) }) ∨
      (step = .finish ∧ s.call k = .walking none ∧
        t = { s with call := Function.update s.call k .returned }) := by
  cases step with
  | assertResolved =>
      simp only [walkStep, Option.ite_none_right_eq_some] at stepped
      obtain ⟨place, stepped⟩ := stepped
      by_cases resolved : futureIsResolved s.future = true
      · rw [if_pos resolved] at stepped
        exact Or.inr (Or.inl ⟨rfl, place, resolved, (Option.some.inj stepped).symm⟩)
      · rw [if_neg resolved] at stepped
        exact Or.inl ⟨⟨place, eq_false_of_ne_true resolved⟩, (Option.some.inj stepped).symm⟩
  | load =>
      simp only [walkStep, Option.ite_none_right_eq_some, Option.some.injEq] at stepped
      exact Or.inr (Or.inr (Or.inl ⟨rfl, stepped.1, stepped.2.symm⟩))
  | execute =>
      simp only [walkStep] at stepped
      split at stepped
      · rename_i callback place
        obtain ⟨record, present, stepped⟩ := Option.map_eq_some_iff.1 stepped
        split at stepped
        · rename_i fit
          exact Or.inr (Or.inr (Or.inr (Or.inl
            ⟨callback, record, rfl, place, present, fit, stepped.symm⟩)))
        · rename_i unfit
          exact Or.inl ⟨⟨callback, record, place, present, eq_false_of_ne_true unfit⟩, stepped.symm⟩
      · cases stepped
  | next =>
      simp only [walkStep] at stepped
      split at stepped
      · rename_i callback place
        obtain ⟨record, present, stepped⟩ := Option.map_eq_some_iff.1 stepped
        exact Or.inr (Or.inr (Or.inr (Or.inr (Or.inl
          ⟨callback, record, rfl, place, present, stepped.symm⟩))))
      · cases stepped
  | finish =>
      simp only [walkStep, Option.ite_none_right_eq_some, Option.some.injEq] at stepped
      exact Or.inr (Or.inr (Or.inr (Or.inr (Or.inr ⟨rfl, stepped.1, stepped.2.symm⟩))))

theorem addCallbackStep_cases {link : Addr} {callbackFn : Option φ} {args : Ptr}
    (stepped : s.addCallbackStep link callbackFn args = some t) :
    s.records link = none ∧
      t = { s with
            future := { s.future with callbacks := some link }
            records := s.records.put link
              { next := s.future.callbacks, callbackFn := callbackFn, args := args } } := by
  simp only [addCallbackStep, Option.isNone_iff_eq_none, Option.ite_none_right_eq_some,
    Option.some.injEq] at stepped
  exact ⟨stepped.1, stepped.2.symm⟩

/-- What a waiter does touches neither the outcome nor the callbacks. -/
structure OnlyWaits (s t : SharedFuture φ) : Prop where
  future : t.future = s.future
  records : t.records = s.records
  call : t.call = s.call
  outcomes : t.outcomes = s.outcomes
  loaded : t.loaded = s.loaded
  executed : t.executed = s.executed

theorem waitStep_onlyWaits {get : Bool} (stepped : s.waitStep w get = some t) :
    OnlyWaits s t := by
  simp only [waitStep, Option.ite_none_right_eq_some, Option.some.injEq] at stepped
  obtain ⟨-, rfl⟩ := stepped
  exact ⟨rfl, rfl, rfl, rfl, rfl, rfl⟩

theorem checkStep_onlyWaits (stepped : s.checkStep w = some t) : OnlyWaits s t := by
  unfold checkStep at stepped
  split at stepped
  · split at stepped
    · split at stepped <;>
        (cases stepped; exact ⟨rfl, rfl, rfl, rfl, rfl, rfl⟩)
    · cases stepped
      exact ⟨rfl, rfl, rfl, rfl, rfl, rfl⟩
  · cases stepped

theorem spuriousStep_onlyWaits (stepped : s.spuriousStep w = some t) : OnlyWaits s t := by
  unfold spuriousStep at stepped
  split at stepped
  · cases stepped
    exact ⟨rfl, rfl, rfl, rfl, rfl, rfl⟩
  · cases stepped

theorem getStep_onlyWaits (stepped : s.getStep w = some t) : OnlyWaits s t := by
  simp only [getStep, Option.ite_none_right_eq_some] at stepped
  obtain ⟨-, stepped⟩ := stepped
  split at stepped <;>
    (cases stepped; exact ⟨rfl, rfl, rfl, rfl, rfl, rfl⟩)

/-- A step settles, walks, registers, or only waits. -/
theorem step_cases {a : FutureAction φ} (stepped : s.step a = some t) :
    s.aborted = false ∧
      ((∃ o, a = .settle o ∧ t = s.settleStep o) ∨
        (∃ k w, a = .walk k w ∧ s.walkStep k w = some t) ∨
        (∃ link callbackFn args, a = .addCallback link callbackFn args ∧
          s.addCallbackStep link callbackFn args = some t) ∨
        (a.isWait = true ∧ OnlyWaits s t)) := by
  simp only [step, Option.ite_none_left_eq_some, Bool.not_eq_true] at stepped
  obtain ⟨alive, stepped⟩ := stepped
  refine ⟨alive, ?_⟩
  cases a with
  | settle o => exact Or.inl ⟨o, rfl, (Option.some.inj stepped).symm⟩
  | walk k w => exact Or.inr (Or.inl ⟨k, w, rfl, stepped⟩)
  | addCallback link callbackFn args =>
      exact Or.inr (Or.inr (Or.inl ⟨link, callbackFn, args, rfl, stepped⟩))
  | wait w get => exact Or.inr (Or.inr (Or.inr ⟨rfl, waitStep_onlyWaits stepped⟩))
  | check w => exact Or.inr (Or.inr (Or.inr ⟨rfl, checkStep_onlyWaits stepped⟩))
  | spurious w => exact Or.inr (Or.inr (Or.inr ⟨rfl, spuriousStep_onlyWaits stepped⟩))
  | get w => exact Or.inr (Or.inr (Or.inr ⟨rfl, getStep_onlyWaits stepped⟩))

/-- Only a settling section settles. -/
theorem step_outcomes {a : FutureAction φ} (stepped : s.step a = some t)
    (notSettle : ∀ o, a ≠ .settle o) : t.outcomes = s.outcomes := by
  obtain ⟨-, ⟨o, settles, -⟩ | ⟨k, w, -, walked⟩ | ⟨link, callbackFn, args, -, added⟩ |
    ⟨-, waits⟩⟩ :=
    step_cases stepped
  · exact absurd settles (notSettle o)
  · rcases walkStep_cases walked with
      ⟨-, rfl⟩ | ⟨-, -, -, rfl⟩ | ⟨-, -, rfl⟩ | ⟨_, _, -, -, -, -, rfl⟩ |
      ⟨_, _, -, -, -, rfl⟩ | ⟨-, -, rfl⟩ <;> rfl
  · obtain ⟨-, rfl⟩ := addCallbackStep_cases added
    rfl
  · exact waits.outcomes

/-- What a step does to the callback records and to what has been run. -/
theorem step_effect {a : FutureAction φ} (stepped : s.step a = some t) :
    (∃ link callbackFn args, a = .addCallback link callbackFn args ∧ s.records link = none ∧
        t.executed = s.executed ∧
        t.records = s.records.put link
          { next := s.future.callbacks, callbackFn := callbackFn, args := args }) ∨
      (∃ k callback record, a = .walk k .execute ∧ s.call k = .walking (some callback) ∧
        s.records callback = some record ∧ t.records = s.records ∧
        ((callbackExecutable record = false ∧ t.executed = s.executed) ∨
          t.executed = s.executed ++ [⟨k, callback, s.future.isResolved⟩])) ∨
      ((∀ k, a ≠ .walk k .execute) ∧ t.records = s.records ∧ t.executed = s.executed) := by
  obtain ⟨-, ⟨o, rfl, rfl⟩ | ⟨k, w, rfl, walked⟩ | ⟨link, callbackFn, args, rfl, added⟩ |
    ⟨waiting, waits⟩⟩ :=
    step_cases stepped
  · exact Or.inr (Or.inr ⟨by simp, rfl, rfl⟩)
  · rcases walkStep_cases walked with ⟨fails, rfl⟩ | ⟨rfl, -, -, rfl⟩ | ⟨rfl, -, rfl⟩ |
      ⟨callback, record, rfl, place, present, -, rfl⟩ | ⟨_, _, rfl, -, -, rfl⟩ | ⟨rfl, -, rfl⟩
    · cases w with
      | execute =>
          obtain ⟨callback, record, place, present, unfit⟩ := fails
          exact Or.inr (Or.inl ⟨k, callback, record, rfl, place, present, rfl, Or.inl ⟨unfit, rfl⟩⟩)
      | _ => exact Or.inr (Or.inr ⟨by simp, rfl, rfl⟩)
    · exact Or.inr (Or.inr ⟨by simp, rfl, rfl⟩)
    · exact Or.inr (Or.inr ⟨by simp, rfl, rfl⟩)
    · exact Or.inr (Or.inl ⟨k, callback, record, rfl, place, present, rfl, Or.inr rfl⟩)
    · exact Or.inr (Or.inr ⟨by simp, rfl, rfl⟩)
    · exact Or.inr (Or.inr ⟨by simp, rfl, rfl⟩)
  · obtain ⟨fresh, rfl⟩ := addCallbackStep_cases added
    exact Or.inl ⟨link, callbackFn, args, rfl, fresh, rfl, rfl⟩
  · refine Or.inr (Or.inr ⟨?_, waits.records, waits.executed⟩)
    intro k same
    rw [same] at waiting
    cases waiting

theorem step_addCallback {link : Addr} {callbackFn : Option φ} {args : Ptr}
    (stepped : s.step (.addCallback link callbackFn args) = some t) :
    s.addCallbackStep link callbackFn args = some t :=
  (Option.ite_none_left_eq_some.1 stepped).2

theorem step_settle {o : Outcome} (stepped : s.step (.settle o) = some t) : t = s.settleStep o := by
  obtain ⟨-, taken⟩ := Option.ite_none_left_eq_some.1 stepped
  exact (Option.some.inj taken).symm

theorem outcomes_prefix {past : List (SharedFuture φ × FutureAction φ)}
    (steps : (machine φ).Steps s past t) : s.outcomes <+: t.outcomes := by
  induction steps with
  | none => exact List.prefix_refl _
  | @step past t a u _ stepped ih =>
      have taken : t.step a = some u := stepped
      cases a with
      | settle o =>
          rw [step_settle taken]
          exact ih.trans (List.prefix_append _ _)
      | _ =>
          rw [step_outcomes taken (by simp)]
          exact ih

end SharedFuture

end Cfutures
