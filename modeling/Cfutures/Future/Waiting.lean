/-
# Future.Waiting -- waiters and the resolved flag

What a waiter's place says of the future: past its wait, or back from it, the
future is resolved; asleep on `wait_cv`, it is not (`Waits`).  The settling section
sets `is_resolved` and broadcasts in one step, and nothing clears it again.
-/
import Cfutures.Future.Shared

namespace Cfutures

open Cfutures.Theory

set_option autoImplicit false

universe u

/-- The steps a waiter has to come to the end of its `future_get`. -/
def Waiter.left (resolved : Bool) : Waiter → Nat
  | .outside => 4
  | .checking _ => if resolved then 2 else 3
  | .asleep _ => 2
  | .reading => 1

theorem Waiter.left_le (resolved : Bool) (place : Waiter) : place.left resolved ≤ 4 := by
  cases place <;> cases resolved <;> simp [left]

namespace SharedFuture

variable {φ : Type u} {s t : SharedFuture φ} {w : Nat}
variable {past : List (SharedFuture φ × FutureAction φ)}

structure Waits (s : SharedFuture φ) : Prop where
  asleep : ∀ w get, s.waiter w = .asleep get → s.future.isResolved = false
  reading : ∀ w, s.waiter w = .reading → s.future.isResolved = true
  returned : s.returns ≠ [] → s.future.isResolved = true

theorem start_waits : (start : SharedFuture φ).Waits where
  asleep w get sleeping := by simp [start] at sleeping
  reading w reads := by simp [start] at reads
  returned some_ := by simp [start] at some_

/-- One waiter moves, to a place that fits the future. -/
theorem Waits.move (waits : s.Waits) {place : Waiter}
    (asleep : ∀ get, place = .asleep get → s.future.isResolved = false)
    (reading : place = .reading → s.future.isResolved = true) {returns : List WaitReturn}
    (returned : returns ≠ [] → s.future.isResolved = true) :
    Waits { s with waiter := Function.update s.waiter w place, returns := returns } where
  asleep v get sleeping := by
    by_cases same : v = w
    · exact asleep get (by simpa [same] using sleeping)
    · exact waits.asleep v get (by simpa [same] using sleeping)
  reading v reads := by
    by_cases same : v = w
    · exact reading (by simpa [same] using reads)
    · exact waits.reading v (by simpa [same] using reads)
  returned := returned

theorem settleStep_waits (s : SharedFuture φ) (o : Outcome) : (s.settleStep o).Waits where
  asleep w get sleeping := by
    simp only [SharedFuture.settleStep, condBroadcast] at sleeping
    split at sleeping <;> simp_all
  reading _ _ := o.settle_isResolved s.future
  returned _ := o.settle_isResolved s.future

theorem Waits.checkStep (waits : s.Waits) (stepped : s.checkStep w = some t) : t.Waits := by
  unfold SharedFuture.checkStep at stepped
  split at stepped
  case h_2 => cases stepped
  by_cases resolved : futureIsResolved s.future = true
  · rw [if_pos resolved] at stepped
    split at stepped <;> cases stepped
    · exact waits.move (by simp) (fun _ => resolved) waits.returned
    · exact waits.move (by simp) (by simp) fun _ => resolved
  · rw [if_neg resolved] at stepped
    cases stepped
    exact waits.move (fun _ _ => eq_false_of_ne_true resolved) (by simp) waits.returned

theorem Waits.getStep (waits : s.Waits) (stepped : s.getStep w = some t) : t.Waits := by
  simp only [SharedFuture.getStep, Option.ite_none_right_eq_some] at stepped
  obtain ⟨reads, stepped⟩ := stepped
  split at stepped <;> cases stepped
  · exact waits.move (by simp) (by simp) fun _ => waits.reading w reads
  · exact ⟨waits.asleep, waits.reading, waits.returned⟩

theorem Waits.step (waits : s.Waits) {a : FutureAction φ} (stepped : s.step a = some t) :
    t.Waits := by
  obtain ⟨-, taken⟩ := Option.ite_none_left_eq_some.1 stepped
  cases a with
  | settle o =>
      rw [step_settle stepped]
      exact settleStep_waits s o
  | walk k w =>
      rcases walkStep_cases taken with ⟨-, rfl⟩ | ⟨-, -, -, rfl⟩ | ⟨-, -, rfl⟩ |
        ⟨_, _, -, -, -, -, rfl⟩ | ⟨_, _, -, -, -, rfl⟩ | ⟨-, -, rfl⟩ <;>
        exact ⟨waits.asleep, waits.reading, waits.returned⟩
  | addCallback link callbackFn args =>
      obtain ⟨-, rfl⟩ := addCallbackStep_cases taken
      exact ⟨waits.asleep, waits.reading, waits.returned⟩
  | wait w get =>
      simp only [waitStep, Option.ite_none_right_eq_some, Option.some.injEq] at taken
      obtain ⟨-, rfl⟩ := taken
      exact waits.move (by simp) (by simp) waits.returned
  | check w => exact waits.checkStep taken
  | spurious w =>
      simp only [spuriousStep] at taken
      split at taken
      · cases taken
        exact waits.move (by simp) (by simp) waits.returned
      · cases taken
  | get w => exact waits.getStep taken

theorem run_waits (run : (machine φ).Run past s) : s.Waits :=
  Machine.Run.invariant (I := Waits) start_waits (fun _ _ _ waits stepped => waits.step stepped) run

/-! ## What a waiter does, and what the others do to it -/

/-- The loop test of `future_wait`. -/
theorem checkStep_cases (stepped : s.checkStep w = some t) :
    ∃ get, s.waiter w = .checking get ∧
      ((s.future.isResolved = true ∧ get = true ∧
          t = { s with waiter := Function.update s.waiter w .reading }) ∨
        (s.future.isResolved = true ∧ get = false ∧
          t = { s with
                waiter := Function.update s.waiter w .outside
                returns := s.returns ++ [⟨w, none⟩] }) ∨
        s.future.isResolved = false ∧
          t = { s with waiter := Function.update s.waiter w (.asleep get) }) := by
  simp only [SharedFuture.checkStep] at stepped
  split at stepped
  · rename_i get place
    refine ⟨get, place, ?_⟩
    split at stepped
    · rename_i resolved
      split at stepped <;> rename_i gets <;> cases stepped
      · exact Or.inl ⟨resolved, gets, rfl⟩
      · exact Or.inr (Or.inl ⟨resolved, eq_false_of_ne_true gets, rfl⟩)
    · rename_i unresolved
      cases stepped
      exact Or.inr (Or.inr ⟨eq_false_of_ne_true unresolved, rfl⟩)
  · cases stepped

/-- On a resolved future a waiter passes its test. -/
theorem exists_pass (alive : s.aborted = false) (resolved : s.future.isResolved = true)
    {get : Bool} (place : s.waiter w = .checking get) :
    ∃ t, s.step (.check w) = some t ∧ t.waiter w = if get then .reading else .outside := by
  cases get with
  | true =>
      exact ⟨{ s with waiter := Function.update s.waiter w .reading },
        by simp [step, alive, SharedFuture.checkStep, place, futureIsResolved, resolved], by simp⟩
  | false =>
      exact ⟨{ s with
          waiter := Function.update s.waiter w .outside
          returns := s.returns ++ [⟨w, none⟩] },
        by simp [step, alive, SharedFuture.checkStep, place, futureIsResolved, resolved], by simp⟩

/-- And on a fulfilled one its `future_get` returns. -/
theorem exists_got (alive : s.aborted = false) {value : Ptr}
    (shown : futureGet s.future = some value) (place : s.waiter w = .reading) :
    ∃ t, s.step (.get w) = some t ∧ t.waiter w = .outside ∧
      t.returns = s.returns ++ [⟨w, some value⟩] :=
  ⟨{ s with
      waiter := Function.update s.waiter w .outside
      returns := s.returns ++ [⟨w, some value⟩] },
    by simp [step, alive, SharedFuture.getStep, place, shown], by simp, rfl⟩

/-- No waiter has moved, but sleepers may have been woken, the future being resolved. -/
def Undisturbed (s t : SharedFuture φ) : Prop :=
  t.returns = s.returns ∧
    ((t.waiter = s.waiter ∧ t.future.isResolved = s.future.isResolved) ∨
      (t.waiter = condBroadcast s.waiter ∧ t.future.isResolved = true))

theorem Undisturbed.refl (s : SharedFuture φ) : Undisturbed s s := ⟨rfl, Or.inl ⟨rfl, rfl⟩⟩

theorem undisturbed_of_step {a : FutureAction φ} (apart : a.isWait = false)
    (stepped : s.step a = some t) : Undisturbed s t := by
  obtain ⟨-, taken⟩ := Option.ite_none_left_eq_some.1 stepped
  cases a with
  | settle o =>
      cases taken
      exact ⟨rfl, Or.inr ⟨rfl, o.settle_isResolved s.future⟩⟩
  | walk k w =>
      rcases walkStep_cases taken with ⟨-, rfl⟩ | ⟨-, -, -, rfl⟩ | ⟨-, -, rfl⟩ |
        ⟨_, _, -, -, -, -, rfl⟩ | ⟨_, _, -, -, -, rfl⟩ | ⟨-, -, rfl⟩ <;>
        exact ⟨rfl, Or.inl ⟨rfl, rfl⟩⟩
  | addCallback link callbackFn args =>
      obtain ⟨-, rfl⟩ := addCallbackStep_cases taken
      exact ⟨rfl, Or.inl ⟨rfl, rfl⟩⟩
  | wait | check | spurious | get => cases apart

theorem Undisturbed.outside (still : Undisturbed s t) {w : Nat} (out : s.waiter w = .outside) :
    t.waiter w = .outside := by
  obtain ⟨-, ⟨same, -⟩ | ⟨woken, -⟩⟩ := still
  · rw [same, out]
  · simp [woken, condBroadcast, out]

theorem Undisturbed.getting (still : Undisturbed s t) {w : Nat}
    (gets : ∀ get, s.waiter w = .checking get ∨ s.waiter w = .asleep get → get = true)
    (get : Bool) (here : t.waiter w = .checking get ∨ t.waiter w = .asleep get) : get = true := by
  obtain ⟨-, ⟨same, -⟩ | ⟨woken, -⟩⟩ := still
  · rw [same] at here
    exact gets get here
  · rw [woken, condBroadcast] at here
    cases place : s.waiter w with
    | asleep get' => exact gets get (Or.inr (by simp_all))
    | checking get' => exact gets get (Or.inl (by simp_all))
    | outside | reading => simp [place] at here

/-- It brings a waiter no farther from its end. -/
theorem Undisturbed.left (still : Undisturbed s t) (w : Nat) :
    (t.waiter w).left t.future.isResolved ≤ (s.waiter w).left s.future.isResolved := by
  obtain ⟨-, ⟨same, same'⟩ | ⟨woken, resolved⟩⟩ := still
  · exact Nat.le_of_eq (by rw [same, same'])
  · rw [woken, resolved, condBroadcast]
    cases s.waiter w <;> cases s.future.isResolved <;> simp [Waiter.left]

end SharedFuture

end Cfutures
