/-
# Future.Calls -- one thread's calls on one future, and its callbacks' own

The functions of future.c as programs of the thread that calls them, with the
mutex.  `lock_mutex` is not recursive, so a thread that locks it again is
`blocked`, and so is one that waits for a future nobody else will resolve.  A
failed assertion ends the program with its place in the source.

A callback is a `Script`: what it does to the future it was given, each step
depending on what it has been told so far.  It may wait, get, ask, and register
further callbacks; that it ends is that scripts are finite along every path.
`behave` says which script a function runs with an argument, as the first callback
of the walk, the second and so on: callbacks may keep a state of their own.

`executed`, `got` and `released` are the record of the calls: the callbacks run,
each with whether its thread had the mutex, the values `future_get` has returned
to them, and the callback records released.
-/
import Cfutures.Future.Basic
import Cfutures.Theory.Program

namespace Cfutures

open Cfutures.Theory

set_option autoImplicit false

/-- The assertions of `future_get`, `future_execute_callbacks` and `callback_execute`. -/
inductive Assertion where
  | getResolved
  | getFulfilled
  | executeResolved
  | callbackFn
  | callbackArgs
  deriving DecidableEq

/-- Why a program goes no further. -/
inductive Stuck where
  | blocked
  | aborted (assertion : Assertion)
  | faulted
  | unfinished
  deriving DecidableEq

/-- One run of a callback: function and argument, and whether the mutex was held. -/
structure Ran (φ : Type) where
  fn : φ
  args : Ptr
  locked : Bool

structure CalledFuture (φ : Type) where
  /-- The future itself is allocated. -/
  present : Bool
  future : Future
  records : Store Addr (Callback φ)
  locked : Bool
  /-- The address `malloc` returns next. -/
  allocated : Nat
  executed : List (Ran φ)
  got : List Ptr
  released : List Addr

/-- What a callback does with its future. -/
inductive Script (φ : Type) where
  | done
  | get (onward : Ptr → Script φ)
  | wait (onward : Script φ)
  | isResolved (onward : Bool → Script φ)
  | isFulfilled (onward : Bool → Script φ)
  | rejectedCode (onward : Int → Script φ)
  | addCallback (callbackFn : Option φ) (args : Ptr) (onward : Script φ)

namespace CalledFuture

variable {φ : Type}

abbrev Program (φ : Type) : Type → Type := EStateM Stuck (CalledFuture φ)

def start : CalledFuture φ where
  present := true
  future := futureNew
  records := Store.empty
  locked := false
  allocated := 0
  executed := []
  got := []
  released := []

def lockMutex : Program φ Unit := fun s =>
  if s.locked then .error .blocked s else .ok () { s with locked := true }

def unlockMutex : Program φ Unit := modify fun s => { s with locked := false }

def assertThat (assertion : Assertion) (holds : Bool) : Program φ Unit := fun s =>
  if holds then .ok () s else .error (.aborted assertion) s

/-- `while (!self->is_resolved) pthread_cond_wait (...)`, with nobody to wake it. -/
def sleepUnlessResolved : Program φ Unit := fun s =>
  if futureIsResolved s.future then .ok () s else .error .blocked s

def futureWait : Program φ Unit := do
  lockMutex
  sleepUnlessResolved
  unlockMutex

def futureGet : Program φ Ptr := do
  futureWait
  let s ← get
  assertThat .getResolved s.future.isResolved
  assertThat .getFulfilled s.future.isFulfilled
  pure s.future.value

def futureAddCallback (callbackFn : Option φ) (args : Ptr) : Program φ Unit := do
  lockMutex
  modify fun s =>
    let added := Cfutures.futureAddCallback s.future s.records s.allocated callbackFn args
    { s with future := added.1, records := added.2, allocated := s.allocated + 1 }
  unlockMutex

/-- The body of a callback. -/
def runScript : Script φ → Program φ Unit
  | .done => pure ()
  | .get onward => do
      let value ← futureGet
      modify fun s => { s with got := s.got ++ [value] }
      runScript (onward value)
  | .wait onward => do
      futureWait
      runScript onward
  | .isResolved onward => do
      let s ← get
      runScript (onward (futureIsResolved s.future))
  | .isFulfilled onward => do
      let s ← get
      runScript (onward (futureIsFulfilled s.future))
  | .rejectedCode onward => do
      let s ← get
      runScript (onward (futureRejectedCode s.future))
  | .addCallback callbackFn args onward => do
      futureAddCallback callbackFn args
      runScript onward

/-- A read through a pointer to a callback record. -/
def readCallback (self : Addr) : Program φ (Callback φ) := fun s =>
  match s.records self with
  | some record => .ok record s
  | none => .error .faulted s

section Settling

variable (behave : Nat → φ → Ptr → Script φ)

def callbackExecute (self : Addr) : Program φ Unit := do
  let record ← readCallback self
  assertThat .callbackFn record.callbackFn.isSome
  assertThat .callbackArgs record.args.isSome
  match record.callbackFn with
  | some fn => do
      let s ← get
      modify fun s => { s with executed := s.executed ++ [⟨fn, record.args, s.locked⟩] }
      runScript (behave s.executed.length fn record.args)
  | none => throw .faulted

/-- `while (callback) { callback_execute (callback, self); callback = callback->next; }`,
at most `turns` turns of it. -/
def walkCallbacks : Nat → Ptr → Program φ Unit
  | _, none => pure ()
  | 0, some _ => throw .unfinished
  | turns + 1, some callback => do
      callbackExecute behave callback
      let record ← readCallback callback
      walkCallbacks turns record.next

def futureExecuteCallbacks (turns : Nat) : Program φ Unit := do
  let s ← get
  assertThat .executeResolved (futureIsResolved s.future)
  walkCallbacks behave turns s.future.callbacks

/-- A section that settles the future, then the callbacks. -/
def settleThenExecute (turns : Nat) (settle : Future → Future) : Program φ Unit := do
  lockMutex
  modify fun s => { s with future := settle s.future }
  unlockMutex
  futureExecuteCallbacks behave turns

def futureSetValue (turns : Nat) (value : Ptr) : Program φ Unit :=
  settleThenExecute behave turns fun self => Cfutures.futureSetValue self value

def futureSetRejected (turns : Nat) (rc : Int) : Program φ Unit :=
  settleThenExecute behave turns fun self => Cfutures.futureSetRejected self rc

/-- `promise_fulfill` or `promise_reject`. -/
def settlePromise (turns : Nat) : Outcome → Program φ Unit
  | .fulfill value => futureSetValue behave turns value
  | .reject rc => futureSetRejected behave turns rc

theorem settlePromise_eq (turns : Nat) (o : Outcome) :
    settlePromise behave turns o = settleThenExecute behave turns fun self => o.settle self := by
  cases o <;> rfl

end Settling

/-- Functions and arguments, registered one after another. -/
def registerAll : List (φ × Ptr) → Program φ Unit
  | [] => pure ()
  | r :: rest => do
      futureAddCallback (some r.1) r.2
      registerAll rest

/-! ## Each call, with the mutex free -/

variable {s : CalledFuture φ}

theorem lockMutex_leads (unlocked : s.locked = false) :
    Leads lockMutex s () { s with locked := true } := by
  simp [Leads, lockMutex, EStateM.run, unlocked]

theorem assertThat_leads {holds : Bool} (assertion : Assertion) (true_ : holds = true) :
    Leads (assertThat assertion holds) s () s := by
  simp [Leads, assertThat, EStateM.run, true_]

theorem assertThat_fails {holds : Bool} (assertion : Assertion) (false_ : holds = false) :
    Fails (assertThat assertion holds) s (.aborted assertion) s := by
  simp [Fails, assertThat, EStateM.run, false_]

theorem readCallback_leads {a : Addr} {record : Callback φ} (present : s.records a = some record) :
    Leads (readCallback a) s record s := by
  simp [Leads, readCallback, EStateM.run, present]

/-- A section: lock, one change that leaves the mutex alone, unlock. -/
theorem section_leads (unlocked : s.locked = false) (change : CalledFuture φ → CalledFuture φ) :
    Leads (do lockMutex; modify change; unlockMutex) s ()
      { change { s with locked := true } with locked := false } :=
  (lockMutex_leads unlocked).bind (Leads.bind (t := change { s with locked := true }) rfl rfl)

theorem futureWait_leads (unlocked : s.locked = false) (resolved : s.future.isResolved = true) :
    Leads futureWait s () s := by
  refine (lockMutex_leads unlocked).bind
    (Leads.bind (a := ()) (t := { s with locked := true }) ?_ ?_)
  · simp [Leads, sleepUnlessResolved, EStateM.run, futureIsResolved, resolved]
  · have same : { s with locked := false } = s := by rw [← unlocked]
    show EStateM.Result.ok () { s with locked := false } = _
    rw [same]

/-- The thread's state after a registration. -/
def registered (s : CalledFuture φ) (callbackFn : Option φ) (args : Ptr) : CalledFuture φ :=
  { s with
    future := { s.future with callbacks := some s.allocated }
    records := s.records.put s.allocated
      { next := s.future.callbacks, callbackFn := callbackFn, args := args }
    allocated := s.allocated + 1 }

theorem futureAddCallback_leads (unlocked : s.locked = false) (callbackFn : Option φ) (args : Ptr) :
    Leads (futureAddCallback callbackFn args) s () (s.registered callbackFn args) := by
  have same : s.registered callbackFn args =
      { s.registered callbackFn args with locked := false } := by
    simp [registered, unlocked]
  rw [same]
  exact section_leads unlocked _

end CalledFuture

end Cfutures
