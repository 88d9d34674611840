/-
# Future.Basic -- the future of future.c and its callback records

`struct _future_t` and `struct _callback_t`, and the code of future.c that runs
under the future's mutex or reads one field.  As in `Queue.Basic` the mutex and
the condition variable belong to the machine (`Future.Shared`).

`callback_t` records live in a store of their own.  Nothing that registers, walks
or settles releases one: `callback_destroy` has no caller.
-/
import Cfutures.Queue.Basic

namespace Cfutures

open Cfutures.Theory

set_option autoImplicit false

universe u

/-- `struct _callback_t`; `φ` is the type of callback functions. -/
structure Callback (φ : Type u) where
  next : Ptr
  callbackFn : Option φ
  args : Ptr

/-- `struct _future_t`. -/
structure Future where
  isResolved : Bool
  isFulfilled : Bool
  rejectedRc : Int
  value : Ptr
  callbacks : Ptr

variable {φ : Type u}

def callbackNew (callbackFn : Option φ) (args : Ptr) : Callback φ :=
  { next := none, callbackFn := callbackFn, args := args }

def futureNew : Future :=
  { isResolved := false, isFulfilled := false, rejectedRc := 0, value := none, callbacks := none }

/-- The critical section of `future_set_value`. -/
def futureSetValue (self : Future) (value : Ptr) : Future :=
  { self with value := value, isResolved := true, isFulfilled := true }

/-- The critical section of `future_set_rejected`. -/
def futureSetRejected (self : Future) (rc : Int) : Future :=
  { self with rejectedRc := rc, isResolved := true }

def futureIsResolved (self : Future) : Bool := self.isResolved

def futureIsFulfilled (self : Future) : Bool := self.isFulfilled

def futureRejectedCode (self : Future) : Int := self.rejectedRc

/-- `future_get` after its wait: undefined where one of its assertions fails. -/
def futureGet (self : Future) : Option Ptr :=
  if self.isResolved && self.isFulfilled then some self.value else none

/-- The critical section of `future_add_callback`, with `link` the address
`callback_new` allocated in it. -/
def futureAddCallback (self : Future) (records : Store Addr (Callback φ)) (link : Addr)
    (callbackFn : Option φ) (args : Ptr) : Future × Store Addr (Callback φ) :=
  ({ self with callbacks := some link },
    records.put link { callbackNew callbackFn args with next := self.callbacks })

/-- The assertions of `callback_execute`, before it calls the function. -/
def callbackExecutable (self : Callback φ) : Bool := self.callbackFn.isSome && self.args.isSome

/-- What a settling call does to its promise: `promise_fulfill` or `promise_reject`. -/
inductive Outcome where
  | fulfill (value : Ptr)
  | reject (rc : Int)
  deriving DecidableEq

/-- `promise_fulfill` and `promise_reject` hand over to the future at once. -/
def Outcome.settle (self : Future) : Outcome → Future
  | .fulfill value => futureSetValue self value
  | .reject rc => futureSetRejected self rc

@[simp] theorem Outcome.settle_callbacks (f : Future) (o : Outcome) :
    (o.settle f).callbacks = f.callbacks := by
  cases o <;> rfl

@[simp] theorem Outcome.settle_isResolved (f : Future) (o : Outcome) :
    (o.settle f).isResolved = true := by
  cases o <;> rfl

/-- The future reports the outcome: 'fulfilled with that value' or 'rejected with
that code', and not the other. -/
def Outcome.ShownBy (f : Future) : Outcome → Prop
  | .fulfill value =>
      futureIsResolved f = true ∧ futureIsFulfilled f = true ∧ futureRejectedCode f = 0 ∧
        futureGet f = some value
  | .reject rc =>
      futureIsResolved f = true ∧ futureIsFulfilled f = false ∧ futureRejectedCode f = rc ∧
        f.value = none ∧ futureGet f = none

/-- A future reports at most one outcome. -/
theorem Outcome.ShownBy.unique {f : Future} {o p : Outcome} (first : o.ShownBy f)
    (second : p.ShownBy f) : o = p := by
  cases o <;> cases p <;> simp_all [Outcome.ShownBy]

theorem Outcome.settle_shows (o : Outcome) (callbacks : Ptr) :
    o.ShownBy (o.settle { futureNew with callbacks := callbacks }) := by
  cases o <;> simp [Outcome.ShownBy, Outcome.settle, futureSetValue, futureSetRejected, futureNew,
    futureIsResolved, futureIsFulfilled, futureRejectedCode, futureGet]

end Cfutures
