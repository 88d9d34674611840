/-
# Pool.Lifetime -- when a caller may destroy a future

`future_get` returns as soon as the settling section has run, but the worker that
ran it goes on: it asserts `is_resolved`, reads the list head and walks the
callbacks, all without the mutex (`Settler.reading`).  A future destroyed in
between is used afterwards.

If every `future_destroy` comes when the worker has seen the end of the list, no
worker touches a destroyed future; and once the workers are through with the
destroyed futures, only then (`no_late_touch_iff`).
-/
import Cfutures.Pool.Results
import Cfutures.Future.Waiting

namespace Cfutures

open Cfutures.Theory

set_option autoImplicit false

universe u v

namespace Pool

variable {n : Nat} {F : Type u} {U : Type v} {s t : Pool n F U} {i : Addr} {w : Fin n}
variable {past more : List (Pool n F U × PoolAction n F U)}

/-- The future that a worker's step reads or writes, or hands to a callback. -/
def touches (s : Pool n F U) : PoolAction n F U → Option Addr
  | .work w .settle =>
      match s.worker w with
      | .fulfilling _ f _ => some f
      | _ => none
  | .work w (.walk step) =>
      match s.worker w with
      | .settling _ f _ => if step = .finish then none else some f
      | _ => none
  | _ => none

/-- No worker has touched a future after its destruction. -/
def NoLateTouch (past : List (Pool n F U × PoolAction n F U)) : Prop :=
  ∀ e ∈ past, ∀ i, e.1.touches e.2 = some i → e.1.stage i ≠ .destroyed

/-- The step is a worker's touch of a future after its destruction. -/
def touchesLate (s : Pool n F U) (a : PoolAction n F U) : Bool :=
  (s.touches a).any fun i => decide (s.stage i = .destroyed)

theorem noLateTouch_iff : NoLateTouch past ↔ ∀ e ∈ past, e.1.touchesLate e.2 = false := by
  simp [NoLateTouch, touchesLate, Option.any_eq_false]

/-- A worker is in `promise_fulfill` on future `i` with an access to come. -/
def stillReading (s : Pool n F U) (i : Addr) : Bool :=
  (List.finRange n).any fun w =>
    match s.worker w with
    | .settling _ f k => decide (f = i) && ((s.futures f).call k).reading
    | _ => false

/-- The step does not destroy a future that a worker is still reading. -/
def destroysInTime (s : Pool n F U) : PoolAction n F U → Bool
  | .destroyFuture i => !s.stillReading i
  | _ => true

theorem stillReading_iff : s.stillReading i = true ↔
    ∃ w c k, s.worker w = .settling c i k ∧ ((s.futures i).call k).reading = true := by
  simp only [stillReading, List.any_eq_true, List.mem_finRange, true_and]
  constructor
  · rintro ⟨w, here⟩
    split at here
    · rename_i c f k place
      simp only [Bool.and_eq_true, decide_eq_true_eq] at here
      obtain ⟨rfl, reading⟩ := here
      exact ⟨w, c, k, place, reading⟩
    · cases here
  · rintro ⟨w, c, k, place, reading⟩
    exact ⟨w, by simp [place, reading]⟩

/-! ## In time, no worker comes late -/

/-- Destroyed futures are settled and no worker has an access to them to come. -/
def Quiet (s : Pool n F U) : Prop :=
  ∀ i, s.stage i = .destroyed → (s.futures i).outcomes ≠ [] ∧
    ∀ w c k, s.worker w = .settling c i k → ((s.futures i).call k).reading = false

/-- Nobody is about to settle a future that is settled. -/
theorem Ledger.not_fulfilling (ledger : s.Ledger) (settled : (s.futures i).outcomes ≠ []) {c : Addr}
    {value : Ptr} : s.worker w ≠ .fulfilling c i value := by
  intro place
  obtain ⟨task, -, expects⟩ := ledger.fits w c (by simp [place, Worker.closure])
  rw [place] at expects
  obtain ⟨rfl, answered⟩ := expects
  exact settled (congrArg Life.outcomes answered)

theorem resolved_of_waited (run : (machine n F U).Run past s)
    (waited : ∃ r ∈ (s.futures i).returns, r.waiter = 0) : (s.futures i).outcomes ≠ [] := by
  obtain ⟨r, member, -⟩ := waited
  have resolved := (SharedFuture.run_waits (run_future run i)).returned (List.ne_nil_of_mem member)
  exact (resolved_iff run i).1 resolved

/-- A future is destroyed by its caller, which has waited for it. -/
theorem destroyed_before {a : PoolAction n F U} (stepped : s.step a = some t)
    (destroyed : t.stage i = .destroyed) :
    s.stage i = .destroyed ∨
      (a = .destroyFuture i ∧ ∃ r ∈ (s.futures i).returns, r.waiter = 0) := by
  have already : ∀ j stage, t.stage = Function.update s.stage j stage → stage ≠ .destroyed →
      s.stage i = .destroyed := by
    intro j stage same ne
    by_cases here : i = j
    · rw [same, here, Function.update_self] at destroyed
      exact absurd destroyed ne
    · rwa [same, Function.update_of_ne here] at destroyed
  rcases step_stage stepped with same | ⟨_, _, -, same⟩ | ⟨j, _, _, -, -, same⟩ |
    ⟨j, _, -, -, same⟩ | ⟨j, rfl, -, waited, same⟩
  · exact Or.inl (same ▸ destroyed)
  · exact Or.inl (already _ _ same (by simp))
  · exact Or.inl (already _ _ same (by simp))
  · exact Or.inl (already _ _ same (by simp))
  · by_cases here : i = j
    · subst here
      exact Or.inr ⟨rfl, waited⟩
    · exact Or.inl (by rwa [same, Function.update_of_ne here] at destroyed)

/-- Nobody comes to walk on a future that was settled before. -/
theorem Ledger.settling_before (ledger : s.Ledger) (settled : (s.futures i).outcomes ≠ [])
    {a : PoolAction n F U} (stepped : s.step a = some t) {c : Addr} {k : Nat}
    (place : t.worker w = .settling c i k) : s.worker w = .settling c i k := by
  rcases step_worker stepped with same | ⟨v, there, next, same⟩
  · rwa [same] at place
  · by_cases here : w = v
    · subst here
      obtain rfl : there = .settling c i k := by simpa [same] using place
      cases before : s.worker w <;> rw [before] at next <;> cases next
      exact absurd before (ledger.not_fulfilling settled)
    · simpa [same, here] using place

/-- A walk that is through with a settled future stays so. -/
theorem Ledger.through_stays (ledger : s.Ledger) (settled : (s.futures i).outcomes ≠ [])
    {a : PoolAction n F U} (stepped : s.step a = some t) {k : Nat}
    (through : ((s.futures i).call k).reading = false) :
    ((t.futures i).call k).reading = false := by
  rcases Machine.moves_cases (projects_future i s a t stepped) with
    ⟨-, same⟩ | ⟨b, named, moves⟩
  · rw [show t.futures i = s.futures i from same]
    exact through
  · refine SharedFuture.step_through moves (?_) through
    intro o same
    obtain ⟨v, d, value, at_, -⟩ := settle_of_action (same ▸ named)
    exact ledger.not_fulfilling settled at_

theorem Quiet.step (quiet : s.Quiet) (run : (machine n F U).Run past s) {a : PoolAction n F U}
    (inTime : s.destroysInTime a = true) (stepped : s.step a = some t) : t.Quiet := by
  have ledger := run_ledger run
  intro i destroyed
  -- before the step the future was destroyed, or it is destroyed now, in time
  have before : (s.futures i).outcomes ≠ [] ∧
      ∀ w c k, s.worker w = .settling c i k → ((s.futures i).call k).reading = false := by
    rcases destroyed_before stepped destroyed with already | ⟨rfl, waited⟩
    · exact quiet i already
    · refine ⟨resolved_of_waited run waited, ?_⟩
      intro w c k place
      by_contra reading
      have late := stillReading_iff.2 ⟨w, c, k, place, by simpa using reading⟩
      simp [destroysInTime, late] at inTime
  obtain ⟨settled, through⟩ := before
  refine ⟨outcomes_stay (Machine.Steps.none.step stepped) settled, ?_⟩
  intro w c k place
  have place' := ledger.settling_before settled stepped place
  exact ledger.through_stays settled stepped (through w c k place')

theorem run_quiet (run : (machine n F U).Run past s)
    (inTime : ∀ e ∈ past, e.1.destroysInTime e.2 = true) : s.Quiet := by
  induction run with
  | none => exact fun i destroyed => by simp [machine, start] at destroyed
  | @step past s a t before stepped ih =>
      refine (ih fun e member => inTime e (List.mem_append_left _ member)).step before ?_ stepped
      exact inTime (s, a) (by simp)

/-- A worker's next access is to a future that is not destroyed. -/
theorem Quiet.touches_live (quiet : s.Quiet) (ledger : s.Ledger) {a : PoolAction n F U}
    (stepped : s.step a = some t) (touched : s.touches a = some i) : s.stage i ≠ .destroyed := by
  intro destroyed
  obtain ⟨settled, through⟩ := quiet i destroyed
  cases step_takes stepped with
  | @settle w c f value _ place =>
      obtain rfl : f = i := by simpa [touches, place] using touched
      exact ledger.not_fulfilling settled place
  | @walk w step c f k _ place taken =>
      simp only [touches, place, Option.ite_none_left_eq_some, Option.some.injEq] at touched
      obtain ⟨notFinish, rfl⟩ := touched
      have quietHere := through w c k place
      rcases SharedFuture.walkStep_cases (Option.ite_none_left_eq_some.1 taken).2 with
        ⟨fails, -⟩ | ⟨-, at_, -⟩ | ⟨-, at_, -⟩ | ⟨_, _, -, at_, -⟩ | ⟨_, _, -, at_, -⟩ | ⟨last, -⟩
      · cases step with
        | assertResolved => simp [fails.1, Settler.reading] at quietHere
        | execute =>
            obtain ⟨callback, record, at_, -⟩ := fails
            simp [at_, Settler.reading] at quietHere
        | _ => exact fails
      · simp [at_, Settler.reading] at quietHere
      · simp [at_, Settler.reading] at quietHere
      · simp [at_, Settler.reading] at quietHere
      · simp [at_, Settler.reading] at quietHere
      · exact notFinish last
  | _ => cases touched

/-- If every destruction comes in time, no worker comes late. -/
theorem noLateTouch_of_inTime (run : (machine n F U).Run past s)
    (inTime : ∀ e ∈ past, e.1.destroysInTime e.2 = true) : NoLateTouch past := by
  intro e recorded i touched
  obtain ⟨before, after, u, split, upto, taken, -⟩ := Machine.Steps.of_mem run recorded
  have quiet := run_quiet upto fun d member => inTime d (by
    rw [split]
    exact List.mem_append_left _ member)
  exact quiet.touches_live (run_ledger upto) taken touched

/-! ## Too early, a worker does -/

/-- A destroyed future with an access to come keeps it until a worker makes it. -/
theorem reading_until_touched (run : (machine n F U).Run past s) {k : Nat}
    (steps : (machine n F U).Steps s more t) (destroyed : s.stage i = .destroyed)
    (settled : (s.futures i).outcomes ≠ []) (reading : ((s.futures i).call k).reading = true)
    (untouched : NoLateTouch more) :
    t.stage i = .destroyed ∧ (t.futures i).outcomes ≠ [] ∧
      ((t.futures i).call k).reading = true := by
  induction steps with
  | none => exact ⟨destroyed, settled, reading⟩
  | @step more u a t before stepped ih =>
      obtain ⟨destroyed, settled, reading⟩ :=
        ih fun e member => untouched e (List.mem_append_left _ member)
      have upto := run.append before
      have ledger := run_ledger upto
      have notTouched : u.touches a ≠ some i := fun touched =>
        untouched (u, a) (by simp) i touched destroyed
      refine ⟨(run_wired upto).destroyed_stays stepped destroyed, ?_⟩
      refine ⟨outcomes_stay (Machine.Steps.none.step stepped) settled, ?_⟩
      rcases Machine.moves_cases (projects_future i u a t stepped) with
        ⟨-, same⟩ | ⟨b, named, moves⟩
      · rw [show t.futures i = u.futures i from same]
        exact reading
      · refine SharedFuture.step_reading moves ?_ ?_ reading
        · rintro o rfl
          obtain ⟨v, d, value, place, -⟩ := settle_of_action named
          exact ledger.not_fulfilling settled place
        · rintro j step rfl
          by_contra notFinish
          obtain ⟨w, c, place, rfl⟩ := walk_of_action named
          exact notTouched (by simp [touches, place, notFinish])

theorem destroysInTime_of_noLateTouch (run : (machine n F U).Run past s)
    (done : ∀ i, s.stage i = .destroyed → (s.futures i).call 0 = .returned)
    (untouched : NoLateTouch past) : ∀ e ∈ past, e.1.destroysInTime e.2 = true := by
  intro e recorded
  obtain ⟨before, after, u, split, upto, taken, rest⟩ := Machine.Steps.of_mem run recorded
  cases action : e.2 with
  | destroyFuture i =>
      by_contra late
      have reading : e.1.stillReading i = true := by simpa [destroysInTime] using late
      obtain ⟨w, c, k, place, reading⟩ := stillReading_iff.1 reading
      obtain ⟨task, -, expects⟩ := (run_ledger upto).fits w c (by simp [place, Worker.closure])
      rw [place] at expects
      obtain ⟨rfl, rfl, value, settled⟩ := expects
      have outcomes : (e.1.futures i).outcomes ≠ [] := by
        rw [show (e.1.futures i).outcomes = _ from congrArg Life.outcomes settled]
        simp [Life.settled]
      rw [action] at taken
      have destroyed := step_takes taken
      cases destroyed
      obtain ⟨destroyed, -, stillReading⟩ := reading_until_touched (upto.step taken) rest
        (by simp [setStage]) outcomes reading fun d member => untouched d (by
          rw [split]
          exact List.mem_append_right _ (List.mem_cons_of_mem _ member))
      rw [done i destroyed] at stillReading
      cases stillReading
  | _ => rfl

/-- **A future may be destroyed as soon as the worker has seen the end of its
callback list**: if every `future_destroy` of the run waits for that, no worker
touches a destroyed future; and if none does and every worker is through with the
futures destroyed, every `future_destroy` did. -/
theorem no_late_touch_iff (run : (machine n F U).Run past s) :
    ((∀ e ∈ past, e.1.destroysInTime e.2 = true) → NoLateTouch past) ∧
      ((∀ i, s.stage i = .destroyed → (s.futures i).call 0 = .returned) →
        NoLateTouch past → ∀ e ∈ past, e.1.destroysInTime e.2 = true) :=
  ⟨noLateTouch_of_inTime run, destroysInTime_of_noLateTouch run⟩

/-- The caller's steps of the README: wait for the value, then destroy the future. -/
def getAndDestroy (i : Addr) : List (PoolAction n F U) :=
  [.client i (.wait 0 true), .client i (.check 0), .client i (.get 0), .destroyFuture i]

/-- The caller gets its value when the worker is through. -/
theorem destroyed_after_walk :
    ∃ past s, (machine 1 String Unit).Run past s ∧ s.stage 0 = .destroyed ∧ NoLateTouch past := by
  obtain ⟨past, s, run, seen⟩ := Machine.exists_run_of_exec (M := machine 1 String Unit)
    (p := fun r => decide (r.2.stage 0 = .destroyed) && r.1.all fun e => e.1.destroysInTime e.2)
    (executeCall 0 "multiply" (some 5) ++ executorTurn 0 (some 15) 1 ++ getAndDestroy 0)
    (by decide)
  simp only [Bool.and_eq_true, decide_eq_true_eq, List.all_eq_true] at seen
  exact ⟨past, s, run, seen.1, (no_late_touch_iff run).1 seen.2⟩

/-- The caller gets its value and destroys the future right after the settling
section; the worker goes on to read it. -/
theorem touched_after_destroy :
    ∃ past s, (machine 1 String Unit).Run past s ∧ ¬ NoLateTouch past := by
  obtain ⟨past, s, run, seen⟩ := Machine.exists_run_of_exec (M := machine 1 String Unit)
    (p := fun r => r.1.any fun e => decide (e.1.touches e.2 = some 0) &&
      decide (e.1.stage 0 = .destroyed))
    (executeCall 0 "multiply" (some 5) ++ (executorTurn 0 (some 15) 1).take 6 ++ getAndDestroy 0 ++
      (executorTurn 0 (some 15) 1).drop 6) (by decide)
  simp only [List.any_eq_true, Bool.and_eq_true, decide_eq_true_eq] at seen
  obtain ⟨e, recorded, touched, destroyed⟩ := seen
  exact ⟨past, s, run, fun untouched => untouched e recorded 0 touched destroyed⟩

end Pool

end Cfutures
