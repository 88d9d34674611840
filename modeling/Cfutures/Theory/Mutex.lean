/-
# Theory.Mutex -- mutexes and the places of the threads that use them

A program's use of its mutexes is a `LockProtocol`: the places a thread can be in,
the moves between them, what each move does to which mutex, and which mutex a thread
at a place owns (it owns at most one).  The protocol carries the proof that these
agree: a move locks what its target owns, unlocks what its source owned, and
otherwise leaves ownership as it is (`LockOp.Fits`).

From that, whatever the interleaving, the owner of a mutex is the one thread at a
place that owns it (`run_keptBy`); and only `lock` can hold a thread up
(`step_of_next`, `lock_of_free`).

`unlock` does not ask who calls it, so that a release too many is not a step that
cannot be taken but a move that does not fit.
-/
import Cfutures.Theory.Machine
import Mathlib.Logic.Function.Basic

namespace Cfutures.Theory

set_option autoImplicit false

universe u v w x

/-- What a move does to the mutexes `L`. -/
inductive LockOp (L : Type x) where
  | keep
  | lock (l : L)
  | unlock (l : L)
  deriving DecidableEq

/-- The operation takes a thread that owns `before` to one that owns `after`. -/
def LockOp.Fits {L : Type x} : LockOp L → Option L → Option L → Prop
  | .keep, before, after => after = before
  | .lock l, before, after => before = none ∧ after = some l
  | .unlock l, before, after => before = some l ∧ after = none

/-- `lock` waits for the mutex to be free. -/
def LockOp.apply {T : Type u} {L : Type x} [DecidableEq L] (owner : L → Option T) (t : T) :
    LockOp L → Option (L → Option T)
  | .keep => some owner
  | .lock l => if (owner l).isNone then some (Function.update owner l (some t)) else none
  | .unlock l => some (Function.update owner l none)

structure LockProtocol (P : Type v) (M : Type w) (L : Type x) where
  start : P
  next : P → M → Option P
  op : P → M → LockOp L
  owns : P → Option L
  start_free : owns start = none
  fits : ∀ {p : P} {m : M} {q : P}, next p m = some q → (op p m).Fits (owns p) (owns q)

/-- Who owns each mutex, and where each thread is. -/
structure Locks (T : Type u) (P : Type v) (L : Type x) where
  owner : L → Option T
  place : T → P

namespace LockProtocol

variable {T : Type u} {P : Type v} {M : Type w} {L : Type x} (N : LockProtocol P M L)

/-- The owner of a mutex is the thread whose place owns it. -/
def KeptBy (s : Locks T P L) : Prop := ∀ l t, s.owner l = some t ↔ N.owns (s.place t) = some l

def startLocks (T : Type u) : Locks T P L where
  owner := fun _ => none
  place := fun _ => N.start

variable [DecidableEq T] [DecidableEq L]

def step (s : Locks T P L) (a : T × M) : Option (Locks T P L) :=
  (N.next (s.place a.1) a.2).bind fun p =>
    ((N.op (s.place a.1) a.2).apply s.owner a.1).map fun owner =>
      { owner := owner, place := Function.update s.place a.1 p }

def machine (T : Type u) [DecidableEq T] : Machine (Locks T P L) (T × M) where
  start := N.startLocks T
  step := N.step

variable {N} {s s' : Locks T P L} {t u : T} {m : M} {l : L}

theorem step_cases (stepped : N.step s (t, m) = some s') :
    ∃ p owner, N.next (s.place t) m = some p ∧
      (N.op (s.place t) m).apply s.owner t = some owner ∧
      s' = { owner := owner, place := Function.update s.place t p } := by
  simp only [step, Option.bind_eq_some_iff, Option.map_eq_some_iff] at stepped
  obtain ⟨p, moved, owner, applied, rfl⟩ := stepped
  exact ⟨p, owner, moved, applied, rfl⟩

/-- A thread's move leaves the other threads where they are. -/
theorem step_other (stepped : N.step s (t, m) = some s') (other : u ≠ t) :
    s'.place u = s.place u := by
  obtain ⟨p, owner, -, -, rfl⟩ := step_cases stepped
  simp [other]

theorem step_self (stepped : N.step s (t, m) = some s') :
    N.next (s.place t) m = some (s'.place t) := by
  obtain ⟨p, owner, moved, -, rfl⟩ := step_cases stepped
  simpa using moved

/-- A move that does not lock is never held up. -/
theorem step_of_next {p : P} (moved : N.next (s.place t) m = some p)
    (notLock : ∀ l, N.op (s.place t) m ≠ .lock l) :
    ∃ owner, N.step s (t, m) = some { owner := owner, place := Function.update s.place t p } ∧
      (N.op (s.place t) m = .keep → owner = s.owner) ∧
      ∀ l, N.op (s.place t) m = .unlock l → owner l = none := by
  cases op : N.op (s.place t) m with
  | keep => exact ⟨s.owner, by simp [step, moved, op, LockOp.apply], fun _ => rfl, nofun⟩
  | lock l => exact absurd op (notLock l)
  | unlock l =>
      refine ⟨Function.update s.owner l none, by simp [step, moved, op, LockOp.apply], nofun, ?_⟩
      rintro _ ⟨rfl⟩
      simp

/-- A free mutex is taken by any thread whose next move is to lock it. -/
theorem lock_of_free {p : P} (moved : N.next (s.place t) m = some p)
    (locks : N.op (s.place t) m = .lock l) (free : s.owner l = none) :
    N.step s (t, m) = some
      { owner := Function.update s.owner l (some t), place := Function.update s.place t p } := by
  simp [step, moved, locks, LockOp.apply, free]

/-! ## Owners and places -/

omit [DecidableEq T] [DecidableEq L] in
/-- No two threads own one mutex. -/
theorem KeptBy.unique (kept : N.KeptBy s) (first : N.owns (s.place t) = some l)
    (second : N.owns (s.place u) = some l) : t = u :=
  Option.some.inj (((kept l t).2 first).symm.trans ((kept l u).2 second))

omit [DecidableEq T] [DecidableEq L] in
theorem startLocks_keptBy : N.KeptBy (N.startLocks T) := by
  intro l t
  simp [startLocks, N.start_free]

/-- A move keeps owners and places in agreement, because it fits its operation. -/
theorem KeptBy.step (kept : N.KeptBy s) (stepped : N.step s (t, m) = some s') : N.KeptBy s' := by
  obtain ⟨p, owner, moved, applied, rfl⟩ := step_cases stepped
  have fits := N.fits moved
  intro l u
  -- a thread that does not move owns what it owned
  have other : u ≠ t → N.owns (Function.update s.place t p u) = N.owns (s.place u) := fun ne => by
    rw [Function.update_of_ne ne]
  have self : N.owns (Function.update s.place t p t) = N.owns p := by
    rw [Function.update_self]
  cases op : N.op (s.place t) m with
  | keep =>
      rw [op] at fits applied
      obtain rfl : s.owner = owner := Option.some.inj applied
      by_cases same : u = t
      · subst same
        rw [self, show N.owns p = N.owns (s.place u) from fits]
        exact kept l u
      · rw [other same]
        exact kept l u
  | lock k =>
      rw [op] at fits applied
      obtain ⟨before, after⟩ := fits
      obtain ⟨free, rfl⟩ : s.owner k = none ∧ Function.update s.owner k (some t) = owner := by
        simpa [LockOp.apply] using applied
      by_cases same : u = t
      · subst same
        rw [self, after]
        by_cases here : l = k
        · simp [here]
        · have notOwner : s.owner l ≠ some u := fun owns => by
            rw [kept l u, before] at owns
            cases owns
          simp [here, Ne.symm here, notOwner]
      · rw [other same, ← kept l u]
        by_cases here : l = k
        · subst here
          simp [free, Ne.symm same]
        · simp [here]
  | unlock k =>
      rw [op] at fits applied
      obtain ⟨before, after⟩ := fits
      obtain rfl : Function.update s.owner k none = owner := Option.some.inj applied
      by_cases same : u = t
      · subst same
        rw [self, after]
        by_cases here : l = k
        · simp [here]
        · have notOwner : s.owner l ≠ some u := fun owns => by
            rw [kept l u, before] at owns
            exact here (Option.some.inj owns).symm
          simp [here, notOwner]
      · rw [other same, ← kept l u]
        by_cases here : l = k
        · subst here
          have notOwner : s.owner l ≠ some u := fun owns =>
            same (kept.unique ((kept l u).1 owns) before)
          simp [notOwner]
        · simp [here]

theorem run_keptBy {past : List (Locks T P L × (T × M))} (run : (N.machine T).Run past s) :
    N.KeptBy s :=
  Machine.Run.invariant (I := N.KeptBy) startLocks_keptBy
    (fun _ _ _ kept stepped => kept.step stepped) run

end LockProtocol

end Cfutures.Theory
