/-
# Future.Cancellation -- cancelling a thread inside `future_wait`

A future is usable when no thread that is gone owns its mutex and every thread that
wants the mutex can have it.  A thread that acts on a cancellation in the wait of
`future_wait` leaves the mutex locked for good (`gone_owner_stays`), and nothing else
does: all futures stay usable through a run exactly when no thread of it is cancelled
there (`usable_iff`).
-/
import Cfutures.Future.Locked

namespace Cfutures

open Cfutures.Theory

set_option autoImplicit false

universe u

/-! ## What the futures contribute -/

namespace SharedFuture

variable {φ : Type u} {s t : SharedFuture φ} {w : Nat}

/-- The waiter that an action is of. -/
def mover : FutureAction φ → Option Nat
  | .wait w _ | .check w | .spurious w | .get w => some w
  | _ => none

/-- A waiter is moved by its own actions, and woken by a broadcast. -/
theorem step_waiter {a : FutureAction φ} (stepped : s.step a = some t) (other : mover a ≠ some w) :
    t.waiter w = s.waiter w ∨
      ∃ get, s.waiter w = .asleep get ∧ t.waiter w = .checking get := by
  have taken := (Option.ite_none_left_eq_some.1 stepped).2
  cases a with
  | settle o =>
      rw [step_settle stepped]
      cases place : s.waiter w <;> simp [settleStep, condBroadcast, place]
  | walk k step =>
      rcases walkStep_cases taken with ⟨-, rfl⟩ | ⟨-, -, -, rfl⟩ | ⟨-, -, rfl⟩ |
        ⟨_, _, -, -, -, -, rfl⟩ | ⟨_, _, -, -, -, rfl⟩ | ⟨-, -, rfl⟩ <;> exact Or.inl rfl
  | addCallback link callbackFn args =>
      obtain ⟨-, rfl⟩ := addCallbackStep_cases taken
      exact Or.inl rfl
  | wait v get =>
      have ne : w ≠ v := fun same => other (congrArg some same.symm)
      simp only [waitStep, Option.ite_none_right_eq_some, Option.some.injEq] at taken
      obtain ⟨-, rfl⟩ := taken
      exact Or.inl (by simp [ne])
  | check v =>
      have ne : w ≠ v := fun same => other (congrArg some same.symm)
      simp only [checkStep] at taken
      split at taken
      · split at taken
        · split at taken <;> (cases taken; exact Or.inl (by simp [ne]))
        · cases taken
          exact Or.inl (by simp [ne])
      · cases taken
  | spurious v =>
      have ne : w ≠ v := fun same => other (congrArg some same.symm)
      simp only [spuriousStep] at taken
      split at taken
      · cases taken
        exact Or.inl (by simp [ne])
      · cases taken
  | get v =>
      have ne : w ≠ v := fun same => other (congrArg some same.symm)
      simp only [getStep, Option.ite_none_right_eq_some] at taken
      obtain ⟨-, taken⟩ := taken
      split at taken <;> cases taken
      · exact Or.inl (by simp [ne])
      · exact Or.inl rfl

theorem hasRoom_step (room : s.records.HasRoom) {a : FutureAction φ}
    (stepped : s.step a = some t) : t.records.HasRoom := by
  obtain ⟨-, ⟨o, -, rfl⟩ | ⟨k, w, -, walked⟩ | ⟨link, callbackFn, args, -, added⟩ |
    ⟨-, waits⟩⟩ := step_cases stepped
  · exact room
  · rcases walkStep_cases walked with
      ⟨-, rfl⟩ | ⟨-, -, -, rfl⟩ | ⟨-, -, rfl⟩ | ⟨_, _, -, -, -, -, rfl⟩ |
      ⟨_, _, -, -, -, rfl⟩ | ⟨-, -, rfl⟩ <;> exact room
  · obtain ⟨-, rfl⟩ := addCallbackStep_cases added
    refine room.of_one link ?_
    intro a ne absent
    exact (Store.put_ne _ _ ne).trans absent
  · rw [waits.records]
    exact room

theorem run_hasRoom {past : List (SharedFuture φ × FutureAction φ)}
    (run : (machine φ).Run past s) : s.records.HasRoom :=
  Machine.Run.invariant (I := fun s : SharedFuture φ => s.records.HasRoom)
    Store.HasRoom.empty_hasRoom (fun _ _ _ room stepped => hasRoom_step room stepped) run

/-- In a process that runs on, the loop test of `future_wait` comes out one way or the
other, a settling section settles, and a registration finds an address. -/
theorem exists_check (alive : s.aborted = false) {get : Bool}
    (checks : s.waiter w = .checking get) :
    ∃ t, s.step (.check w) = some t ∧ t.aborted = false := by
  by_cases resolved : futureIsResolved s.future = true
  · cases get with
    | true =>
        exact ⟨{ s with waiter := Function.update s.waiter w .reading },
          by simp [step, alive, checkStep, checks, resolved], alive⟩
    | false =>
        exact ⟨{ s with
            waiter := Function.update s.waiter w .outside
            returns := s.returns ++ [⟨w, none⟩] },
          by simp [step, alive, checkStep, checks, resolved], alive⟩
  · exact ⟨{ s with waiter := Function.update s.waiter w (.asleep get) },
      by simp [step, alive, checkStep, checks, resolved], alive⟩

theorem exists_settle (alive : s.aborted = false) (o : Outcome) :
    ∃ t, s.step (.settle o) = some t ∧ t.aborted = false :=
  ⟨s.settleStep o, by simp [step, alive], alive⟩

theorem exists_addCallback {past : List (SharedFuture φ × FutureAction φ)}
    (run : (machine φ).Run past s) (alive : s.aborted = false) (callbackFn : Option φ)
    (args : Ptr) :
    ∃ link t, s.step (.addCallback link callbackFn args) = some t ∧ t.aborted = false := by
  obtain ⟨link, absent⟩ := (run_hasRoom run).exists_absent
  let added := futureAddCallback s.future s.records link callbackFn args
  exact ⟨link, { s with future := added.1, records := added.2 },
    by simp [step, alive, addCallbackStep, absent, added], alive⟩

end SharedFuture

namespace LockedFutures

variable {φ : Type u} {s s' : LockedFutures φ} {t : Nat} {f : Addr} {move : FutureMove φ}
  {past more : List (LockedFutures φ × LockedFutureAction φ)}

/-! ## Places and waiters -/

/-- What thread `t`'s place says of it as a waiter. -/
def Expects (s : LockedFutures φ) (t : Nat) : FuturePlace φ → Prop
  | .waitLock f get | .waitLocked f get => (s.futures f).waiter t = .checking get
  | .waitSleep f get =>
      (s.futures f).waiter t = .checking get ∨ (s.futures f).waiter t = .asleep get
  | _ => True

def Placed (s : LockedFutures φ) : Prop := ∀ t, s.Expects t (s.lock.place t)

/-- What is expected of a waiter that no step is of stays so. -/
theorem Expects.of_other {p : FuturePlace φ} (expects : s.Expects t p)
    {a : LockedFutureAction φ} (stepped : s.step a = some s')
    (other : ∀ f b, s.effect a = some (f, b) → SharedFuture.mover b ≠ some t) :
    s'.Expects t p := by
  have waiter : ∀ f, (s'.futures f).waiter t = (s.futures f).waiter t ∨
      ∃ get, (s.futures f).waiter t = .asleep get ∧ (s'.futures f).waiter t = .checking get := by
    intro f
    rcases step_effect stepped with ⟨-, futures, -⟩ | ⟨g, b, future, effect, taken, futures, -⟩
    · exact Or.inl (by rw [futures])
    · by_cases same : f = g
      · subst same
        simpa [futures] using SharedFuture.step_waiter taken (other f b effect)
      · exact Or.inl (by simp [futures, same])
  cases p with
  | waitLock f get | waitLocked f get =>
      rcases waiter f with kept | ⟨_, sleeping, -⟩
      · exact kept.trans expects
      · rw [show (s.futures f).waiter t = _ from expects] at sleeping
        cases sleeping
  | waitSleep f get =>
      rcases waiter f with kept | ⟨_, sleeping, woken⟩
      · simpa [Expects, kept] using expects
      · rcases expects with checks | sleeps
        · rw [checks] at sleeping
          cases sleeping
        · rw [sleeps] at sleeping
          cases sleeping
          exact Or.inl woken
  | _ => trivial

/-- The moves of a thread that end in `future_wait`, before its last unlock. -/
theorem next_waiting {p q : FuturePlace φ} (moved : p.next move = some q) :
    (∃ f get, p = .outside ∧ move = .callWait f get ∧ q = .waitLock f get) ∨
      (∃ f get, (p = .waitLock f get ∨ p = .waitSleep f get) ∧ move = .lock ∧
        q = .waitLocked f get) ∨
      (∃ f get, p = .waitLocked f get ∧ move = .sleep ∧ q = .waitSleep f get) ∨
      (∃ f get, p = .waitSleep f get ∧ move = .wake ∧ q = .waitSleep f get) ∨
      ∀ s : LockedFutures φ, s.Expects t q := by
  cases p <;> cases move <;> cases moved <;> simp [Expects]
  case waitUnlock f get => cases get <;> simp

/-- What a move does to its future, as a step of that future. -/
theorem move_effect (stepped : s.step (.move t move) = some s') {a : FutureAction φ}
    (effect : (s.lock.place t).effect t move = some (f, a)) :
    (s.futures f).step a = some (s'.futures f) := by
  rcases step_effect stepped with ⟨none_, -⟩ | ⟨g, b, future, some_, taken, futures, -⟩
  · exact absurd (none_.symm.trans effect) (by simp)
  · cases (show some (g, b) = some (f, a) from some_.symm.trans effect)
    simpa [futures] using taken

theorem move_keeps (stepped : s.step (.move t move) = some s')
    (effect : (s.lock.place t).effect t move = none) : s'.futures = s.futures := by
  rcases step_effect stepped with ⟨-, futures, -⟩ | ⟨g, b, future, some_, -⟩
  · exact futures
  · exact absurd (some_.symm.trans effect) (by simp)

theorem Placed.moved (placed : s.Placed) (stepped : s.step (.move t move) = some s') :
    s'.Expects t (s'.lock.place t) := by
  have expects := placed t
  obtain ⟨enabled, -, -, locked⟩ := step_move stepped
  have moved : (s.lock.place t).next move = some (s'.lock.place t) := LockProtocol.step_self locked
  rcases next_waiting (t := t) moved with
    ⟨f, get, place, rfl, there⟩ | ⟨f, get, place, rfl, there⟩ | ⟨f, get, place, rfl, there⟩ |
    ⟨f, get, place, rfl, there⟩ | elsewhere
  · have taken := move_effect stepped (f := f) (a := .wait t get) (by simp [FuturePlace.effect])
    have waits := (Option.ite_none_left_eq_some.1 taken).2
    simp only [SharedFuture.waitStep, Option.ite_none_right_eq_some, Option.some.injEq] at waits
    rw [there, Expects, ← waits.2]
    simp
  · have same := move_keeps stepped (by rcases place with place | place <;> rw [place] <;> rfl)
    rw [there, Expects, same]
    rcases place with place | place <;> rw [place] at expects enabled
    · exact expects
    · rcases expects with checks | sleeps
      · exact checks
      · simp [LockedFutures.enabled, asleep, sleeps] at enabled
  · have taken := move_effect stepped (f := f) (a := .check t) (by rw [place]; rfl)
    have checks := (Option.ite_none_left_eq_some.1 taken).2
    rw [place] at expects enabled
    have unresolved : futureIsResolved (s.futures f).future = false := by
      simpa [LockedFutures.enabled] using enabled
    rw [Expects] at expects
    simp only [SharedFuture.checkStep, expects, unresolved, Bool.false_eq_true, if_false,
      Option.some.injEq] at checks
    rw [there, Expects, ← checks]
    simp
  · have taken := move_effect stepped (f := f) (a := .spurious t) (by rw [place]; rfl)
    have wakes := (Option.ite_none_left_eq_some.1 taken).2
    rw [place, Expects] at expects
    rcases expects with checks | sleeps
    · simp [SharedFuture.spuriousStep, checks] at wakes
    · simp only [SharedFuture.spuriousStep, sleeps, Option.some.injEq] at wakes
      rw [there, Expects, ← wakes]
      simp
  · exact elsewhere s'

/-- A move is an action of the thread that makes it, on the waiters too. -/
theorem mover_of_effect {p : FuturePlace φ} {a : FutureAction φ} {u : Nat}
    (effect : p.effect t move = some (f, a)) (moves : SharedFuture.mover a = some u) : u = t := by
  cases p <;> cases move <;> simp only [FuturePlace.effect, Option.some.injEq, Prod.mk.injEq,
    reduceCtorEq] at effect <;> (obtain ⟨-, rfl⟩ := effect; cases moves) <;> rfl

theorem Placed.step (placed : s.Placed) {a : LockedFutureAction φ} (stepped : s.step a = some s') :
    s'.Placed := by
  intro t
  by_cases own : thread a = some t
  · cases a with
    | move u move =>
        cases own
        exact placed.moved stepped
    | walk | request => cases own
  · rw [step_place stepped own]
    refine (placed t).of_other stepped ?_
    intro f b effect moves
    cases a with
    | move u move => exact own (congrArg some (mover_of_effect effect moves).symm)
    | walk f k w =>
        cases effect
        cases moves
    | request => cases effect

theorem start_placed : (start : LockedFutures φ).Placed := fun _ => trivial

theorem run_placed (run : (machine φ).Run past s) : s.Placed :=
  Machine.Run.invariant (I := Placed) start_placed (fun _ _ _ placed stepped => placed.step stepped)
    run

/-- A process that has not aborted has no future that has. -/
theorem run_running (run : (machine φ).Run past s) (running : s.aborted = false) (f : Addr) :
    (s.futures f).aborted = false := by
  induction run with
  | none => rfl
  | @step past s a s' before stepped ih =>
      have ran : s.aborted = false := by
        simpa using (Option.ite_none_left_eq_some.1 stepped).1
      rcases step_effect stepped with ⟨-, futures, -⟩ | ⟨g, b, future, -, -, futures, aborted⟩
      · rw [futures]
        exact ih ran
      · rw [futures]
        by_cases same : f = g
        · subst same
          rw [Function.update_self]
          exact aborted.symm.trans running
        · rw [Function.update_of_ne same]
          exact ih ran

/-! ## The mutex can be had -/

/-- A future is usable: its mutex is not with a thread that is gone, and every thread
that wants it can have it, by its own steps and the owner's. -/
structure Usable (s : LockedFutures φ) : Prop where
  alive : ∀ f t, s.lock.owner f = some t → (s.lock.place t).isTerminated = false
  lockable : s.aborted = false → ∀ t f, (s.lock.place t).wantsLock = some f →
    ∃ more u, (machine φ).Steps s more u ∧ u.lock.owner f = some t ∧
      ∀ e ∈ more, thread e.2 = some t ∨ thread e.2 = s.lock.owner f

/-- The future, if the move is on one, takes the action. -/
def Acts (s : LockedFutures φ) (t : Nat) (move : FutureMove φ) : Prop :=
  ∀ f a, (s.lock.place t).effect t move = some (f, a) →
    ∃ future, (s.futures f).step a = some future ∧ future.aborted = false

theorem exists_effect (running : s.aborted = false) (acts : s.Acts t move) :
    ∃ u, s.effectStep t move = some u ∧ u.aborted = false := by
  cases effect : (s.lock.place t).effect t move with
  | none => exact ⟨s, by simp [effectStep, effect], running⟩
  | some on =>
      obtain ⟨future, taken, running'⟩ := acts on.1 on.2 effect
      exact ⟨{ s with futures := Function.update s.futures on.1 future, aborted := future.aborted },
        by simp [effectStep, effect, futureStep, taken], running'⟩

/-- A move that does not lock is made as soon as its condition holds. -/
theorem exists_move (running : s.aborted = false) (acts : s.Acts t move) {p : FuturePlace φ}
    (enabled : s.enabled t (s.lock.place t) move = true)
    (moved : (s.lock.place t).next move = some p)
    (notLock : ∀ f, (s.lock.place t).op move ≠ .lock f) :
    ∃ u, s.step (.move t move) = some u ∧ u.aborted = false ∧ u.lock.place t = p ∧
      ((s.lock.place t).op move = .keep → u.lock.owner = s.lock.owner) ∧
      ∀ f, (s.lock.place t).op move = .unlock f → u.lock.owner f = none := by
  obtain ⟨v, acted, running'⟩ := exists_effect running acts
  obtain ⟨owner, locked, kept, unlocked⟩ :=
    LockProtocol.step_of_next (N := futureLocking φ) moved notLock
  refine ⟨{ v with lock := { owner := owner, place := Function.update s.lock.place t p } },
    ?_, running', by simp, kept, unlocked⟩
  simp [step, running, moveStep, enabled, acted, locked]

/-- At the end of its section a thread gives up the mutex. -/
theorem exists_unlock (running : s.aborted = false) {p : FuturePlace φ}
    (atEnd : (s.lock.place t).next .unlock = some p) (owns : (s.lock.place t).owns = some f) :
    ∃ u, (machine φ).Steps s [(s, .move t .unlock)] u ∧ u.aborted = false ∧
      u.lock.owner f = none := by
  have acts : s.Acts t .unlock := by
    intro g a effect
    cases place : s.lock.place t <;> simp [FuturePlace.effect] at effect
  have unlocks : (s.lock.place t).op .unlock = .unlock f := by
    cases place : s.lock.place t <;>
      simp [place, FuturePlace.next, FuturePlace.owns] at atEnd owns <;>
      simp [FuturePlace.op, owns]
  obtain ⟨u, stepped, running', -, -, unlocked⟩ := exists_move running acts
    (by cases place : s.lock.place t <;> rfl) atEnd (by simp [unlocks])
  exact ⟨u, .single stepped, running', unlocked f unlocks⟩

/-- From a section's last step but one, which leaves the mutex alone or gives it up. -/
theorem exists_unlocked_after (running : s.aborted = false) (acts : s.Acts t move)
    {p : FuturePlace φ} (enabled : s.enabled t (s.lock.place t) move = true)
    (moved : (s.lock.place t).next move = some p)
    (fits : (s.lock.place t).op move = .unlock f ∨
      ((s.lock.place t).op move = .keep ∧ (∃ q, p.next .unlock = some q) ∧ p.owns = some f)) :
    ∃ more u, (machine φ).Steps s more u ∧ u.aborted = false ∧ u.lock.owner f = none ∧
      ∀ e ∈ more, thread e.2 = some t := by
  have notLock : ∀ f, (s.lock.place t).op move ≠ .lock f := by
    intro g locks
    rcases fits with unlocks | ⟨keeps, -⟩
    · simp [unlocks] at locks
    · simp [keeps] at locks
  obtain ⟨u, stepped, running', there, -, unlocked⟩ :=
    exists_move running acts enabled moved notLock
  have first : (machine φ).Steps s [(s, .move t move)] u := .single stepped
  rcases fits with unlocks | ⟨-, ⟨q, atEnd⟩, owns⟩
  · exact ⟨_, u, first, running', unlocked f unlocks, by simp [thread]⟩
  · obtain ⟨v, second, free⟩ := exists_unlock running' (there ▸ atEnd) (there ▸ owns)
    exact ⟨_, v, first.append second, free.1, free.2, by simp [thread]⟩

/-- The test of the loop of `future_wait`. -/
theorem acts_check (run : (machine φ).Run past s) (running : s.aborted = false) {get : Bool}
    (place : s.lock.place t = .waitLocked f get)
    (tests : move = .sleep ∨ move = .pass) : s.Acts t move := by
  intro g a effect
  obtain ⟨rfl, rfl⟩ : f = g ∧ .check t = a := by
    rcases tests with rfl | rfl <;> simpa [place, FuturePlace.effect] using effect
  have checks : (s.futures f).waiter t = .checking get := by
    simpa [place, Expects] using run_placed run t
  exact SharedFuture.exists_check (run_running run running f) checks

/-- An owner that is not gone gives up its mutex in at most two steps of its own. -/
theorem exists_unlocked (run : (machine φ).Run past s) (running : s.aborted = false)
    (owner : s.lock.owner f = some t) (alive : (s.lock.place t).isTerminated = false) :
    ∃ more u, (machine φ).Steps s more u ∧ u.aborted = false ∧ u.lock.owner f = none ∧
      ∀ e ∈ more, thread e.2 = some t := by
  have owns := (owner_iff run f t).1 owner
  cases place : s.lock.place t with
  | waitLocked g get =>
      obtain rfl : g = f := by simpa [place, FuturePlace.owns] using owns
      by_cases resolved : futureIsResolved (s.futures g).future = true
      · refine exists_unlocked_after running (acts_check run running place (Or.inr rfl))
          (p := .waitUnlock g get) (by simp [place, enabled, resolved]) (by rw [place]; rfl) ?_
        rw [place]
        exact Or.inr ⟨rfl, ⟨_, rfl⟩, rfl⟩
      · refine exists_unlocked_after running (acts_check run running place (Or.inl rfl))
          (p := .waitSleep g get) (by simp [place, enabled, resolved]) (by rw [place]; rfl) ?_
        rw [place]
        exact Or.inl rfl
  | settleLocked g o =>
      obtain rfl : g = f := by simpa [place, FuturePlace.owns] using owns
      have acts : s.Acts t .settle := by
        intro h a effect
        obtain ⟨rfl, rfl⟩ : g = h ∧ .settle o = a := by
          simpa [place, FuturePlace.effect] using effect
        exact SharedFuture.exists_settle (run_running run running g) o
      refine exists_unlocked_after running acts (p := .settleUnlock g) (by rw [place]; rfl)
        (by rw [place]; rfl) ?_
      rw [place]
      exact Or.inr ⟨rfl, ⟨_, rfl⟩, rfl⟩
  | addLocked g callbackFn args =>
      obtain rfl : g = f := by simpa [place, FuturePlace.owns] using owns
      obtain ⟨link, future, added, alive⟩ := SharedFuture.exists_addCallback (run_future run g)
        (run_running run running g) callbackFn args
      have acts : s.Acts t (.add link) := by
        intro h a effect
        obtain ⟨rfl, rfl⟩ : g = h ∧ .addCallback link callbackFn args = a := by
          simpa [place, FuturePlace.effect] using effect
        exact ⟨future, added, alive⟩
      refine exists_unlocked_after running acts (p := .addUnlock g) (by rw [place]; rfl)
        (by rw [place]; rfl) ?_
      rw [place]
      exact Or.inr ⟨rfl, ⟨_, rfl⟩, rfl⟩
  | waitUnlock g get | settleUnlock g | addUnlock g =>
      obtain ⟨u, stepped, free⟩ := exists_unlock running (t := t) (by rw [place]; rfl) owns
      exact ⟨_, u, stepped, free.1, free.2, by simp [thread]⟩
  | terminated => simp [place, FuturePlace.isTerminated] at alive
  | _ => simp [place, FuturePlace.owns] at owns

/-- An awake thread takes the free mutex it wants. -/
theorem exists_lock (running : s.aborted = false) (free : s.lock.owner f = none)
    (wants : (s.lock.place t).wantsLock = some f)
    (awake : s.enabled t (s.lock.place t) .lock = true) :
    ∃ u, (machine φ).Steps s [(s, .move t .lock)] u ∧ u.lock.owner f = some t := by
  have locks : (s.lock.place t).op .lock = .lock f ∧ ∃ p, (s.lock.place t).next .lock = some p := by
    cases place : s.lock.place t <;> simp [place, FuturePlace.wantsLock] at wants <;>
      simp [FuturePlace.op, FuturePlace.next, wants]
  obtain ⟨op, p, moved⟩ := locks
  have locked := LockProtocol.lock_of_free (N := futureLocking φ) moved op free
  have effect : (s.lock.place t).effect t .lock = none := by
    cases place : s.lock.place t <;> rfl
  let u : LockedFutures φ := { s with lock := {
    owner := Function.update s.lock.owner f (some t)
    place := Function.update s.lock.place t p } }
  have stepped : s.step (.move t .lock) = some u := by
    simp [step, running, moveStep, awake, effectStep, effect, locked, u]
  exact ⟨u, .single stepped, by simp [u]⟩

/-- A thread that wants the free mutex takes it, waking up before it if it must. -/
theorem exists_lock_of_free (run : (machine φ).Run past s) (running : s.aborted = false)
    (free : s.lock.owner f = none) (wants : (s.lock.place t).wantsLock = some f) :
    ∃ more u, (machine φ).Steps s more u ∧ u.lock.owner f = some t ∧
      ∀ e ∈ more, thread e.2 = some t := by
  by_cases awake : s.enabled t (s.lock.place t) .lock = true
  · obtain ⟨u, locked, owner⟩ := exists_lock running free wants awake
    exact ⟨_, u, locked, owner, by simp [thread]⟩
  · obtain ⟨get, place⟩ : ∃ get, s.lock.place t = .waitSleep f get := by
      cases place : s.lock.place t <;> simp [place, FuturePlace.wantsLock, enabled] at wants awake
      exact ⟨_, by rw [wants]⟩
    have sleeping : s.asleep t f = true := by
      simpa [place, enabled] using awake
    have expects := run_placed run t
    rw [place, Expects] at expects
    have asleep : (s.futures f).waiter t = .asleep get := by
      rcases expects with checks | sleeps
      · simp [LockedFutures.asleep, checks] at sleeping
      · exact sleeps
    have alive := run_running run running f
    have acts : s.Acts t .wake := by
      intro g a effect
      obtain ⟨rfl, rfl⟩ : f = g ∧ .spurious t = a := by
        simpa [place, FuturePlace.effect] using effect
      exact ⟨{ s.futures f with waiter := Function.update (s.futures f).waiter t (.checking get) },
        by simp [SharedFuture.step, alive, SharedFuture.spuriousStep, asleep], alive⟩
    obtain ⟨u, woken, running', there, kept, -⟩ := exists_move running acts (by rw [place]; rfl)
      (p := .waitSleep f get) (by rw [place]; rfl) (by simp [place, FuturePlace.op])
    have first : (machine φ).Steps s [(s, .move t .wake)] u := .single woken
    have free' : u.lock.owner f = none := by
      rw [kept (by rw [place]; rfl)]
      exact free
    have taken := move_effect woken (f := f) (a := .spurious t) (by rw [place]; rfl)
    have wakes := (Option.ite_none_left_eq_some.1 taken).2
    simp only [SharedFuture.spuriousStep, asleep, Option.some.injEq] at wakes
    obtain ⟨v, locked, owner⟩ := exists_lock running' free' (by rw [there]; rfl)
      (by simp [there, enabled, LockedFutures.asleep, ← wakes])
    exact ⟨_, v, first.append locked, owner, by simp [thread]⟩

/-- While no thread that is gone owns it, every thread that wants a mutex can have it. -/
theorem exists_locked (run : (machine φ).Run past s)
    (alive : ∀ f t, s.lock.owner f = some t → (s.lock.place t).isTerminated = false) :
    s.Usable := by
  refine ⟨alive, ?_⟩
  intro running t f wants
  cases owner : s.lock.owner f with
  | none =>
      obtain ⟨more, u, steps, owner', own⟩ := exists_lock_of_free run running owner wants
      exact ⟨more, u, steps, owner', fun e member => Or.inl (own e member)⟩
  | some o =>
      obtain ⟨more, u, steps, running', free, owners⟩ :=
        exists_unlocked run running owner (alive f o owner)
      have notOwner : o ≠ t := by
        rintro rfl
        have owns := (owner_iff run f o).1 owner
        cases place : s.lock.place o <;>
          simp [place, FuturePlace.owns, FuturePlace.wantsLock] at owns wants
      have place : u.lock.place t = s.lock.place t := steps_place steps fun e member own =>
        notOwner (Option.some.inj ((owners e member).symm.trans own))
      obtain ⟨more', v, steps', owner', own⟩ :=
        exists_lock_of_free (run.append steps) running' free (place ▸ wants)
      refine ⟨more ++ more', v, steps.append steps', owner', ?_⟩
      intro e member
      rcases List.mem_append.1 member with earlier | later
      · exact Or.inr (owners e earlier)
      · exact Or.inl (own e later)

/-! ## Cancelled in `future_wait` -/

/-- The step is a cancellation acted on in the wait of `future_wait`. -/
def cancelsWait : LockedFutureAction φ → Bool
  | .move _ .cancel => true
  | _ => false

/-- A thread that is gone stays so, and keeps its mutex. -/
theorem gone_owner_stays (run : (machine φ).Run past s)
    (gone : s.lock.place t = .terminated (some f)) (steps : (machine φ).Steps s more s') :
    s'.lock.place t = .terminated (some f) ∧ s'.lock.owner f = some t := by
  have stays : s'.lock.place t = .terminated (some f) := by
    induction steps with
    | none => exact gone
    | @step more u a v before stepped ih =>
        rw [← ih]
        refine step_place stepped ?_
        intro own
        cases a with
        | move u move =>
            cases own
            have locked := (step_move stepped).2.2.2
            have alive := FuturePlace.next_alive (LockProtocol.step_self locked)
            simp [ih, FuturePlace.isTerminated] at alive
        | walk | request => cases own
  refine ⟨stays, (owner_iff (run.append steps) f t).2 ?_⟩
  rw [stays]
  rfl

/-- Without such a cancellation no thread that is gone owns a mutex. -/
theorem gone_owns_nothing (run : (machine φ).Run past s)
    (never : ∀ e ∈ past, cancelsWait e.2 = false) (t : Nat)
    (gone : (s.lock.place t).isTerminated = true) : (s.lock.place t).owns = none := by
  induction run with
  | none => cases gone
  | @step past s a s' before stepped ih =>
      have last : cancelsWait a = false := never (s, a) (by simp)
      by_cases own : thread a = some t
      · cases a with
        | move u move =>
            cases own
            have locked := (step_move stepped).2.2.2
            by_contra owner
            have cancels := FuturePlace.next_terminated (LockProtocol.step_self locked) gone owner
            rw [cancels] at last
            cases last
        | walk | request => cases own
      · rw [step_place stepped own] at gone ⊢
        exact ih (fun e member => never e (List.mem_append_left _ member)) gone

/-- **All futures stay usable exactly in the runs in which no thread acts on a
cancellation inside `future_wait`.** -/
theorem usable_iff (run : (machine φ).Run past s) :
    (∀ u ∈ Machine.visited past s, u.Usable) ↔ ∀ e ∈ past, cancelsWait e.2 = false := by
  constructor
  · intro usable e recorded
    by_contra cancels
    obtain ⟨before, after, u, split, upto, taken, rest⟩ := Machine.Steps.of_mem run recorded
    have seen : u ∈ Machine.visited past s := by
      rw [split, List.append_cons, Machine.visited_append]
      exact List.mem_append_right _ rest.start_visited
    obtain ⟨t, cancelled⟩ : ∃ t, e.2 = .move t .cancel := by
      unfold cancelsWait at cancels
      split at cancels
      · exact ⟨_, ‹_›⟩
      · cases cancels rfl
    rw [cancelled] at taken
    -- the thread is gone, with the mutex of the future it was waiting for
    obtain ⟨f, gone⟩ := FuturePlace.next_cancel (LockProtocol.step_self (step_move taken).2.2.2)
    have owner := (owner_iff (upto.step (a := .move t .cancel) taken) f t).2 (by rw [gone]; rfl)
    have alive := (usable u seen).alive f t owner
    rw [gone] at alive
    cases alive
  · intro never u seen
    obtain ⟨earlier, later, rfl, upto⟩ := Machine.Run.of_visited run seen
    refine exists_locked upto ?_
    intro f t owner
    by_contra gone
    rw [Bool.not_eq_false] at gone
    have owns := (owner_iff upto f t).1 owner
    rw [gone_owns_nothing upto (fun e member => never e (List.mem_append_left _ member)) t gone]
      at owns
    cases owns

end LockedFutures

end Cfutures
