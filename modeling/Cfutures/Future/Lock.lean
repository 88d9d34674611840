/-
# Future.Lock -- the mutexes of futures, through the operations on them

Where each thread is with respect to the `lock_mutex` of the future it is working on,
for any number of futures.  The operations are `future_wait` (alone or inside
`future_get`), a settling call and `future_add_callback`; a thread takes one mutex at
a time, and none while callbacks run.

    wait      lock  ->  pass  ->  unlock  ( ->  get )
                 \->  sleep  ->  lock  ->  ...
                        \->  cancel
    settle    lock  ->  settle  ->  unlock
    add       lock  ->  add  ->  unlock

`pthread_cond_wait` in `future_wait` has no cleanup handler around it.  A thread that
acts on a cancellation there takes the mutex again, as every cancelled wait does, and
is gone with it: `terminated (some f)`.
-/
import Cfutures.Future.Shared
import Cfutures.Theory.Mutex

namespace Cfutures

open Cfutures.Theory

set_option autoImplicit false

universe u

/-- Where a thread is in an operation on a future. -/
inductive FuturePlace (φ : Type u) where
  | outside
  | waitLock (f : Addr) (get : Bool)
  /-- About to test `is_resolved`. -/
  | waitLocked (f : Addr) (get : Bool)
  /-- In `pthread_cond_wait`. -/
  | waitSleep (f : Addr) (get : Bool)
  | waitUnlock (f : Addr) (get : Bool)
  /-- In `future_get`, back from its wait. -/
  | getting (f : Addr)
  | settleLock (f : Addr) (outcome : Outcome)
  | settleLocked (f : Addr) (outcome : Outcome)
  | settleUnlock (f : Addr)
  | addLock (f : Addr) (callbackFn : Option φ) (args : Ptr)
  | addLocked (f : Addr) (callbackFn : Option φ) (args : Ptr)
  | addUnlock (f : Addr)
  /-- Gone, with the mutex it owned. -/
  | terminated (owned : Option Addr)

inductive FutureMove (φ : Type u) where
  | callWait (f : Addr) (get : Bool)
  | callSettle (f : Addr) (outcome : Outcome)
  | callAdd (f : Addr) (callbackFn : Option φ) (args : Ptr)
  | lock
  | sleep
  | wake
  | pass
  | get
  | settle
  | add (link : Addr)
  | unlock
  | cancel
  | exit

variable {φ : Type u}

/-- The mutex that a thread at this place owns. -/
def FuturePlace.owns : FuturePlace φ → Option Addr
  | .waitLocked f _ | .waitUnlock f _ | .settleLocked f _ | .settleUnlock f
  | .addLocked f _ _ | .addUnlock f => some f
  | .terminated owned => owned
  | _ => none

/-- The mutex that the thread is going to take next. -/
def FuturePlace.wantsLock : FuturePlace φ → Option Addr
  | .waitLock f _ | .waitSleep f _ | .settleLock f _ | .addLock f _ _ => some f
  | _ => none

def FuturePlace.isTerminated : FuturePlace φ → Bool
  | .terminated _ => true
  | _ => false

/-- The operations on futures, from one place to the next. -/
def FuturePlace.next : FuturePlace φ → FutureMove φ → Option (FuturePlace φ)
  | .outside, .callWait f get => some (.waitLock f get)
  | .waitLock f get, .lock => some (.waitLocked f get)
  | .waitLocked f get, .sleep => some (.waitSleep f get)
  | .waitSleep f get, .wake => some (.waitSleep f get)
  | .waitSleep f get, .lock => some (.waitLocked f get)
  | .waitSleep f _, .cancel => some (.terminated (some f))
  | .waitLocked f get, .pass => some (.waitUnlock f get)
  | .waitUnlock f get, .unlock => some (if get then .getting f else .outside)
  | .getting _, .get => some .outside
  | .outside, .callSettle f o => some (.settleLock f o)
  | .settleLock f o, .lock => some (.settleLocked f o)
  | .settleLocked f _, .settle => some (.settleUnlock f)
  | .settleUnlock _, .unlock => some .outside
  | .outside, .callAdd f callbackFn args => some (.addLock f callbackFn args)
  | .addLock f callbackFn args, .lock => some (.addLocked f callbackFn args)
  | .addLocked f _ _, .add _ => some (.addUnlock f)
  | .addUnlock _, .unlock => some .outside
  | .outside, .exit => some (.terminated none)
  | _, _ => none

/-- A cancelled wait takes its mutex again. -/
def FuturePlace.op : FuturePlace φ → FutureMove φ → LockOp Addr
  | .waitLock f _, .lock | .waitSleep f _, .lock | .waitSleep f _, .cancel
  | .settleLock f _, .lock | .addLock f _ _, .lock => .lock f
  | .waitLocked f _, .sleep | .waitUnlock f _, .unlock | .settleUnlock f, .unlock
  | .addUnlock f, .unlock => .unlock f
  | _, _ => .keep

theorem FuturePlace.fits {p : FuturePlace φ} {move : FutureMove φ} {q : FuturePlace φ}
    (moved : p.next move = some q) : (p.op move).Fits p.owns q.owns := by
  cases p <;> cases move <;> cases moved <;> simp [op, LockOp.Fits, owns]
  case waitUnlock f get => cases get <;> rfl

/-- The operations on futures, as a use of their mutexes. -/
def futureLocking (φ : Type u) : LockProtocol (FuturePlace φ) (FutureMove φ) Addr where
  start := .outside
  next := FuturePlace.next
  op := FuturePlace.op
  owns := FuturePlace.owns
  start_free := rfl
  fits := FuturePlace.fits

abbrev FutureLocks (φ : Type u) := Locks Nat (FuturePlace φ) Addr

@[simp] theorem futureLocking_next : (futureLocking φ).next = FuturePlace.next := rfl

@[simp] theorem futureLocking_op : (futureLocking φ).op = FuturePlace.op := rfl

/-- A thread that is gone moves no more. -/
theorem FuturePlace.next_alive {p q : FuturePlace φ} {move : FutureMove φ}
    (moved : p.next move = some q) : p.isTerminated = false := by
  cases p <;> first | rfl | cases moved

/-- The one move that leaves a mutex with a thread that is gone. -/
theorem FuturePlace.next_terminated {p q : FuturePlace φ} {move : FutureMove φ}
    (moved : p.next move = some q) (gone : q.isTerminated = true) (owner : q.owns ≠ none) :
    move = .cancel := by
  cases p <;> cases move <;> cases moved <;> simp_all [isTerminated, owns]
  case waitUnlock f get => cases get <;> cases gone

/-- A cancelled wait ends with its mutex. -/
theorem FuturePlace.next_cancel {p q : FuturePlace φ} (moved : p.next .cancel = some q) :
    ∃ f, q = .terminated (some f) := by
  cases p <;> cases moved
  exact ⟨_, rfl⟩

theorem FuturePlace.terminated_of_owns {p : FuturePlace φ} {f : Addr}
    (gone : p.isTerminated = true) (owns : p.owns = some f) : p = .terminated (some f) := by
  cases p <;> cases gone
  rw [← owns]
  rfl

/-- The owner of a mutex is the thread at a place that owns it, alive or not. -/
theorem run_futureLock {s : FutureLocks φ} {past : List (FutureLocks φ × (Nat × FutureMove φ))}
    (run : ((futureLocking φ).machine Nat).Run past s) (f : Addr) (t : Nat) :
    s.owner f = some t ↔ (s.place t).owns = some f :=
  LockProtocol.run_keptBy run f t

end Cfutures
