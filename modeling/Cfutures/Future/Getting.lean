/-
# Future.Getting -- what `future_wait` and `future_get` come back with

A waiter is past its wait only if `is_resolved` was seen under the mutex, and
`is_resolved` is set by settling sections alone (`Waits`).  With one settling call
at most, the outcome fields are written once, before anyone is past the wait, so
what `future_get` reads afterwards without the mutex is that outcome, at whatever
moments it reads: the value of the `promise_fulfill`, or a failed assertion after a
`promise_reject`.
-/
import Cfutures.Future.Settlement
import Cfutures.Future.Waiting

namespace Cfutures

open Cfutures.Theory

set_option autoImplicit false

universe u

/-- What `future_get` reads of a settled future. -/
theorem Outcome.ShownBy.get {f : Future} {o : Outcome} (shown : o.ShownBy f) :
    (futureIsFulfilled f = false ↔ ∃ rc, o = .reject rc) ∧
      (futureGet f = none ↔ ∃ rc, o = .reject rc) ∧
      ∀ value, futureGet f = some value → o = .fulfill value := by
  cases o with
  | fulfill value =>
      obtain ⟨-, fulfilled, -, got⟩ := shown
      simp [fulfilled, got]
  | reject rc =>
      obtain ⟨-, fulfilled, -, -, got⟩ := shown
      simp [fulfilled, got]

namespace SharedFuture

variable {φ : Type u} {s t : SharedFuture φ} {w : Nat}
variable {past : List (SharedFuture φ × FutureAction φ)}

theorem getStep_cases (stepped : s.getStep w = some t) :
    s.waiter w = .reading ∧
      ((futureGet s.future = none ∧ t = { s with aborted := true }) ∨
        ∃ value, futureGet s.future = some value ∧
          t = { s with
                waiter := Function.update s.waiter w .outside
                returns := s.returns ++ [⟨w, some value⟩] }) := by
  simp only [getStep, Option.ite_none_right_eq_some] at stepped
  obtain ⟨reading, stepped⟩ := stepped
  refine ⟨reading, ?_⟩
  cases got : futureGet s.future with
  | none =>
      rw [got] at stepped
      exact Or.inl ⟨rfl, (Option.some.inj stepped).symm⟩
  | some value =>
      rw [got] at stepped
      exact Or.inr ⟨value, rfl, (Option.some.inj stepped).symm⟩

/-- A step adds no return, that of a `future_wait`, or that of a `future_get` with
what it has just read. -/
theorem step_returns {a : FutureAction φ} (stepped : s.step a = some t) :
    t.returns = s.returns ∨ (∃ w, t.returns = s.returns ++ [⟨w, none⟩]) ∨
      ∃ w value, a = .get w ∧ s.waiter w = .reading ∧ futureGet s.future = some value ∧
        t.returns = s.returns ++ [⟨w, some value⟩] := by
  obtain ⟨-, taken⟩ := Option.ite_none_left_eq_some.1 stepped
  cases a with
  | settle o =>
      cases taken
      exact Or.inl rfl
  | walk k w =>
      rcases walkStep_cases taken with ⟨-, rfl⟩ | ⟨-, -, -, rfl⟩ | ⟨-, -, rfl⟩ |
        ⟨_, _, -, -, -, -, rfl⟩ | ⟨_, _, -, -, -, rfl⟩ | ⟨-, -, rfl⟩ <;> exact Or.inl rfl
  | addCallback link callbackFn args =>
      obtain ⟨-, rfl⟩ := addCallbackStep_cases taken
      exact Or.inl rfl
  | wait w get =>
      simp only [waitStep, Option.ite_none_right_eq_some, Option.some.injEq] at taken
      obtain ⟨-, rfl⟩ := taken
      exact Or.inl rfl
  | check w =>
      simp only [checkStep] at taken
      split at taken
      · split at taken
        · split at taken <;> cases taken
          · exact Or.inl rfl
          · exact Or.inr (Or.inl ⟨w, rfl⟩)
        · cases taken
          exact Or.inl rfl
      · cases taken
  | spurious w =>
      simp only [spuriousStep] at taken
      split at taken <;> cases taken
      exact Or.inl rfl
  | get w =>
      obtain ⟨reading, ⟨-, rfl⟩ | ⟨value, got, rfl⟩⟩ := getStep_cases taken
      · exact Or.inl rfl
      · exact Or.inr (Or.inr ⟨w, value, rfl, reading, got, rfl⟩)

/-- Someone is past a wait only once a settling section has run. -/
theorem settled_of_past_wait (run : (machine φ).Run past s)
    (passed : s.returns ≠ [] ∨ ∃ w, s.waiter w = .reading) : s.outcomes ≠ [] := by
  obtain ⟨order, walks⟩ := run_walks run
  refine walks.resolved.1 ?_
  rcases passed with returned | ⟨w, reading⟩
  · exact (run_waits run).returned returned
  · exact (run_waits run).reading w reading

/-- With one settling call at most, whoever is reading sees its outcome. -/
theorem shown_of_reading (run : (machine φ).Run past s) (once : s.outcomes.length ≤ 1)
    (reading : s.waiter w = .reading) : ∃ o, s.outcomes = [o] ∧ o.ShownBy s.future := by
  have settled := settled_of_past_wait run (Or.inr ⟨w, reading⟩)
  obtain ⟨o, one⟩ : ∃ o, s.outcomes = [o] :=
    List.length_eq_one_iff.1 (Nat.le_antisymm once (List.length_pos_of_ne_nil settled))
  exact ⟨o, one, (shown_of_single run).2 o one⟩

/-- Every value a `future_get` has returned is the one given to `promise_fulfill`. -/
theorem returned_value (run : (machine φ).Run past s) (once : s.outcomes.length ≤ 1)
    {r : WaitReturn} (returned : r ∈ s.returns) {value : Ptr} (got : r.value = some value) :
    s.outcomes = [.fulfill value] := by
  induction run with
  | none => cases returned
  | @step past s a t before stepped ih =>
      have grown : s.outcomes <+: t.outcomes := outcomes_prefix (Machine.Steps.none.step stepped)
      have early : s.outcomes.length ≤ 1 := Nat.le_trans grown.length_le once
      -- what was settled when someone returned is all that is settled now
      have kept : ∀ o, s.outcomes = [o] → t.outcomes = [o] := by
        intro o one
        rw [one] at grown
        exact (grown.eq_of_length_le (by simpa using once)).symm
      rcases step_returns stepped with same | ⟨w, same⟩ | ⟨w, value', -, reading, read, same⟩
      · exact kept _ (ih early (same ▸ returned))
      · rw [same] at returned
        rcases List.mem_append.1 returned with earlier | here
        · exact kept _ (ih early earlier)
        · rw [List.mem_singleton.1 here] at got
          cases got
      · rw [same] at returned
        rcases List.mem_append.1 returned with earlier | here
        · exact kept _ (ih early earlier)
        · rw [List.mem_singleton.1 here, Option.some.injEq] at got
          subst got
          obtain ⟨o, one, shown⟩ := shown_of_reading before early reading
          rw [shown.get.2.2 value' read] at one
          exact kept _ one

/-- **Waiting is correct for any number of waiters**: nobody is past a wait before
the settling section, nobody is asleep after it, every `future_get` that returned
has the value of the `promise_fulfill`, and one that is past its wait fails its
assertion exactly after a `promise_reject`. -/
theorem waiters_see_outcome (run : (machine φ).Run past s) (once : s.outcomes.length ≤ 1) :
    (s.returns ≠ [] ∨ (∃ w, s.waiter w = .reading) → s.outcomes ≠ []) ∧
      (futureIsResolved s.future = true → ∀ w get, s.waiter w ≠ .asleep get) ∧
      (∀ r ∈ s.returns, ∀ value, r.value = some value → s.outcomes = [.fulfill value]) ∧
      ∀ w, s.waiter w = .reading →
        (futureIsFulfilled s.future = false ↔ ∃ rc, s.outcomes = [.reject rc]) ∧
          ∀ t, s.step (.get w) = some t →
            (t.aborted = true ↔ ∃ rc, s.outcomes = [.reject rc]) := by
  refine ⟨settled_of_past_wait run, ?_,
    fun r returned value got => returned_value run once returned got, ?_⟩
  · intro resolved w get sleeping
    have unresolved := (run_waits run).asleep w get sleeping
    rw [futureIsResolved, unresolved] at resolved
    cases resolved
  · intro w reading
    obtain ⟨o, one, shown⟩ := shown_of_reading run once reading
    obtain ⟨fulfilled, fails, -⟩ := shown.get
    rw [one]
    refine ⟨by simpa using fulfilled, ?_⟩
    intro t stepped
    obtain ⟨alive, taken⟩ := Option.ite_none_left_eq_some.1 stepped
    obtain ⟨-, ⟨none_, rfl⟩ | ⟨value, some_, rfl⟩⟩ := getStep_cases taken
    · simpa using fails.1 none_
    · rw [some_] at fails
      simpa [alive] using fails

/-- Two waiters asleep, one woken too early and asleep again, both released by the
settling call; a third asks afterwards.  Two of the three have asked for the value. -/
theorem three_waiters_see_value :
    ∃ past s, (machine Unit).Run past s ∧ s.outcomes = [.fulfill (some 5)] ∧
      s.returns = [⟨1, none⟩, ⟨2, some (some 5)⟩, ⟨0, some (some 5)⟩] := by
  obtain ⟨past, s, run, seen⟩ := Machine.exists_run_of_exec (M := machine Unit)
    (p := fun r => decide (r.2.outcomes.length ≤ 1) &&
      decide (r.2.returns = [⟨1, none⟩, ⟨2, some (some 5)⟩, ⟨0, some (some 5)⟩]))
    [.wait 0 true, .check 0, .wait 1 false, .check 1, .spurious 0, .check 0,
      .settle (.fulfill (some 5)), .check 1, .check 0, .wait 2 true, .check 2, .get 2, .get 0]
    (by decide)
  simp only [Bool.and_eq_true, decide_eq_true_eq] at seen
  obtain ⟨once, returned⟩ := seen
  have gotten : (⟨0, some (some 5)⟩ : WaitReturn) ∈ s.returns := by simp [returned]
  exact ⟨past, s, run, (waiters_see_outcome run once).2.2.1 _ gotten _ rfl, returned⟩

end SharedFuture

end Cfutures
