/-
# Queue.Lock -- the mutex of the queue, through `queue_enqueue` and `queue_pop`

Where each thread is with respect to `lock_mutex`, and the operation on the mutex
that takes it to the next place.  The list is not here: that a loop test finds
`head` NULL (`sleep`) or not (`take`) is the environment's choice, which
`Queue.Locked` and `Pool.Ordered` make as the list says.

    enqueue   lock  ->  link  ->  relinquish
    pop       lock  ->  take  ->  relinquish  ->  return
                 \->  sleep  ->  lock  ->  ...
                        \->  cancel  ->  lock  ->  relinquish  ->  gone

`relinquish` is `thread_relinquish_lock`, run by `pthread_cleanup_pop (1)` at the
end of a section and by the cancellation of the wait alike.  The wait gives up the
mutex while asleep and takes it again, also before the handler.  Every move fits its
operation (`QueueMove.fits`), so the owner of the mutex is always the one thread
inside a section (`run_queueLock`).
-/
import Cfutures.Theory.Mutex

namespace Cfutures

open Cfutures.Theory

set_option autoImplicit false

universe u v

/-- Where a thread is in `queue_enqueue` or `queue_pop`. -/
inductive QueuePlace (α : Type v) where
  | outside
  | enqueueLock (value : α)
  | enqueueLocked (value : α)
  | enqueueRelinquish
  | popLock
  /-- About to test `head`. -/
  | popLocked
  /-- In `pthread_cond_wait`. -/
  | popWait
  | popRelinquish
  /-- Past the section, about to read the value and free the item. -/
  | popReturn
  /-- Acting on a cancellation in `pthread_cond_wait`. -/
  | cancelLock
  | cancelRelinquish
  /-- Terminated in `pthread_cond_wait`. -/
  | cancelled
  /-- Terminated outside the two operations. -/
  | exited
  deriving DecidableEq

inductive QueueMove (α : Type v) where
  | callEnqueue (value : α)
  | callPop
  | lock
  | link
  | sleep
  | take
  | relinquish
  | return
  | cancel
  | exit

variable {T : Type u} {α : Type v}

/-- Inside the critical section of `queue_enqueue` or `queue_pop`, or in the cleanup
handler of the latter. -/
def QueuePlace.inSection : QueuePlace α → Bool
  | .enqueueLocked _ | .enqueueRelinquish | .popLocked | .popRelinquish | .cancelRelinquish => true
  | _ => false

/-- The next operation of the thread is to take the mutex. -/
def QueuePlace.wantsLock : QueuePlace α → Bool
  | .enqueueLock _ | .popLock | .popWait | .cancelLock => true
  | _ => false

def QueuePlace.terminated : QueuePlace α → Bool
  | .cancelled | .exited => true
  | _ => false

/-- `queue_enqueue` and `queue_pop`, from one place to the next. -/
def QueuePlace.next : QueuePlace α → QueueMove α → Option (QueuePlace α)
  | .outside, .callEnqueue value => some (.enqueueLock value)
  | .enqueueLock value, .lock => some (.enqueueLocked value)
  | .enqueueLocked _, .link => some .enqueueRelinquish
  | .enqueueRelinquish, .relinquish => some .outside
  | .outside, .callPop => some .popLock
  | .popLock, .lock => some .popLocked
  | .popLocked, .sleep => some .popWait
  | .popWait, .lock => some .popLocked
  | .popLocked, .take => some .popRelinquish
  | .popRelinquish, .relinquish => some .popReturn
  | .popReturn, .return => some .outside
  | .popWait, .cancel => some .cancelLock
  | .cancelLock, .lock => some .cancelRelinquish
  | .cancelRelinquish, .relinquish => some .cancelled
  | .outside, .exit => some .exited
  | _, _ => none

/-- `pthread_cond_wait` unlocks as the thread goes to sleep. -/
def QueueMove.op : QueueMove α → LockOp Unit
  | .lock => .lock ()
  | .sleep | .relinquish => .unlock ()
  | _ => .keep

def QueuePlace.owns (p : QueuePlace α) : Option Unit := if p.inSection then some () else none

/-- Every move locks on the way into a section, unlocks on the way out of it, and
otherwise leaves the mutex alone. -/
theorem QueueMove.fits {p : QueuePlace α} {move : QueueMove α} {q : QueuePlace α}
    (moved : p.next move = some q) : move.op.Fits p.owns q.owns := by
  cases p <;> cases move <;> cases moved <;>
    simp [QueueMove.op, LockOp.Fits, QueuePlace.owns, QueuePlace.inSection]

/-- The two operations, as a use of `lock_mutex`. -/
def queueLocking (α : Type v) : LockProtocol (QueuePlace α) (QueueMove α) Unit where
  start := .outside
  next := QueuePlace.next
  op := fun _ move => move.op
  owns := QueuePlace.owns
  start_free := rfl
  fits := QueueMove.fits

@[simp] theorem queueLocking_next : (queueLocking α).next = QueuePlace.next := rfl

@[simp] theorem queueLocking_op (p : QueuePlace α) (move : QueueMove α) :
    (queueLocking α).op p move = move.op := rfl

abbrev QueueLock (T : Type u) (α : Type v) := Locks T (QueuePlace α) Unit

theorem QueuePlace.owns_iff {p : QueuePlace α} : p.owns = some () ↔ p.inSection = true := by
  simp [owns]

theorem QueuePlace.not_terminated {p : QueuePlace α} (within : p.inSection = true) :
    p.terminated = false := by
  cases p <;> first | rfl | cases within

/-- A terminated thread moves no more. -/
theorem QueuePlace.next_alive {p q : QueuePlace α} {move : QueueMove α}
    (moved : p.next move = some q) : p.terminated = false := by
  cases p <;> first | rfl | cases moved

/-- A thread that wants the mutex locks it by its next move. -/
theorem QueuePlace.next_lock {p : QueuePlace α} (wants : p.wantsLock = true) :
    ∃ q, p.next .lock = some q := by
  cases p <;> first | exact ⟨_, rfl⟩ | cases wants

/-- **The owner of the mutex is the one thread inside a critical section.** -/
theorem run_queueLock {T : Type u} [DecidableEq T] {s : QueueLock T α}
    {past : List (QueueLock T α × (T × QueueMove α))}
    (run : ((queueLocking α).machine T).Run past s) (t : T) :
    s.owner () = some t ↔ (s.place t).inSection = true :=
  (LockProtocol.run_keptBy run () t).trans QueuePlace.owns_iff

end Cfutures
