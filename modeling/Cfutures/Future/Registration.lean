/-
# Future.Registration -- which registered callbacks a settling call runs

A settling call runs the callbacks linked when it reads the list head.  A
registration that comes after the read is never looked at again
(`registered_mem_snapshot`): `future_add_callback` does not test `is_resolved`,
and nothing walks the list a second time.  With one settling call, every
registered callback runs exactly once if and only if none is registered after the
read (`each_runs_once_iff`); `registered_after_walk` is a run that registers one
too late.
-/
import Cfutures.Future.Walk

namespace Cfutures

open Cfutures.Theory

set_option autoImplicit false

universe u

namespace SharedFuture

variable {φ : Type u} {s : SharedFuture φ} {order l : List Addr} {k : Nat} {link : Addr}
variable {past : List (SharedFuture φ × FutureAction φ)}

/-- The callback record a step registers. -/
def registers : FutureAction φ → Option Addr
  | .addCallback link _ _ => some link
  | _ => none

theorem step_registers {t : SharedFuture φ} {a : FutureAction φ} (stepped : s.step a = some t)
    (registered : registers a = some link) :
    ∃ callbackFn args, s.addCallbackStep link callbackFn args = some t := by
  cases a with
  | addCallback link' callbackFn args =>
      obtain rfl : link' = link := by simpa [registers] using registered
      exact ⟨callbackFn, args, step_addCallback stepped⟩
  | _ => cases registered

/-- How often a callback has been run, by any settling call. -/
def timesRun (s : SharedFuture φ) (a : Addr) : Nat := (s.executed.map Execution.callback).count a

/-- Every callback registered so far has run exactly once, and every run of one saw
the future resolved. -/
def EachRunsOnce (past : List (SharedFuture φ × FutureAction φ)) (s : SharedFuture φ) : Prop :=
  (∀ e ∈ past, ∀ link, registers e.2 = some link → s.timesRun link = 1) ∧
    ∀ x ∈ s.executed, x.resolved = true

/-- A registered callback is in what call `k` read exactly when `k` had not read
the list head yet. -/
theorem registered_mem_snapshot (run : (machine φ).Run past s)
    {e : SharedFuture φ × FutureAction φ} (recorded : e ∈ past)
    (registered : registers e.2 = some link) (snapshot : s.Snapshot k l) :
    link ∈ l ↔ e.1.loaded k = none := by
  obtain ⟨before, after, u, -, upto, taken, rest⟩ := Machine.Steps.of_mem run recorded
  obtain ⟨order, walks⟩ := run_walks upto
  obtain ⟨callbackFn, args, added⟩ := step_registers taken registered
  obtain ⟨walks', persists⟩ := walks.addCallbackStep added
  obtain ⟨fresh, rfl⟩ := addCallbackStep_cases added
  constructor
  · intro member
    cases read : e.1.loaded k with
    | none => rfl
    | some head =>
        obtain ⟨m, earlier⟩ := walks.snapshot_of_read read
        have kept := (walks'.persists rest).snapshot (persists.snapshot earlier)
        obtain rfl := snapshot.unique kept
        obtain ⟨_, -, chain⟩ := earlier
        exact absurd rfl (chain.ne_of_absent fresh link member)
  · intro unread
    exact walks'.mem_snapshot rest unread (by simp) snapshot

/-- A registered record stays as it was registered. -/
theorem registered_record (run : (machine φ).Run past s) {e : SharedFuture φ × FutureAction φ}
    (recorded : e ∈ past) {callbackFn : Option φ} {args : Ptr}
    (registered : e.2 = .addCallback link callbackFn args) :
    ∃ record, s.records link = some record ∧ record.callbackFn = callbackFn ∧
      record.args = args := by
  obtain ⟨before, after, u, -, upto, taken, rest⟩ := Machine.Steps.of_mem run recorded
  obtain ⟨order, walks⟩ := run_walks upto
  have added : e.1.addCallbackStep link callbackFn args = some u := by
    rw [registered] at taken
    exact step_addCallback taken
  have kept := (walks.addCallbackStep added).1.persists rest
  obtain ⟨-, rfl⟩ := addCallbackStep_cases added
  exact ⟨_, kept.records link _ (Store.put_same ..), rfl, rfl⟩

/-- What has been run is on record. -/
theorem Walks.executed_present (walks : s.Walks order) {x : Execution} (ran : x ∈ s.executed) :
    (s.records x.callback).isSome := by
  have member : x.callback ∈ s.executedBy x.call := mem_executedBy.2 ⟨x, ran, rfl, rfl⟩
  obtain ⟨head, rest, -, whole⟩ := walks.reading x.call (List.ne_nil_of_mem member)
  obtain ⟨record, present⟩ := whole.live (List.mem_append_left rest member)
  simp [present]

theorem Walks.returned_snapshot (walks : s.Walks order) (done : s.call k = .returned) :
    s.Snapshot k (s.executedBy k) := by
  have here := walks.walked k
  rw [done] at here
  exact here

theorem Walks.call_lt (walks : s.Walks order) {x : Execution} (ran : x ∈ s.executed) :
    x.call < s.outcomes.length := by
  by_contra later
  have here := walks.walked x.call
  rw [walks.pending x.call (by omega)] at here
  have member : x.callback ∈ s.executedBy x.call := mem_executedBy.2 ⟨x, ran, rfl, rfl⟩
  rw [here.2] at member
  cases member

theorem Walks.executed_eq (walks : s.Walks order) (one : s.outcomes.length = 1) :
    s.executed.map Execution.callback = s.executedBy 0 := by
  have first : ∀ x ∈ s.executed, decide (x.call = 0) = true := by
    intro x ran
    have := walks.call_lt ran
    simp only [decide_eq_true_eq]
    omega
  rw [executedBy, List.filter_eq_self.2 first]

/-- With one settling call, once it has returned: a registered callback ran once if
the list head had not been read, and never if it had. -/
theorem timesRun_eq (run : (machine φ).Run past s) (one : s.outcomes.length = 1)
    (done : s.call 0 = .returned) {e : SharedFuture φ × FutureAction φ} (recorded : e ∈ past)
    (registered : registers e.2 = some link) :
    s.timesRun link = if (e.1.loaded 0).isNone then 1 else 0 := by
  obtain ⟨order, walks⟩ := run_walks run
  have snapshot := walks.returned_snapshot done
  have inside := registered_mem_snapshot run recorded registered snapshot
  obtain ⟨_, -, chain⟩ := snapshot
  rw [timesRun, walks.executed_eq one, chain.nodup.count]
  simp only [inside, Option.isNone_iff_eq_none]

/-- **Every registered callback runs exactly once, exactly when none is registered
after the settling call has read the list head**; and every callback that runs
sees the future resolved. -/
theorem each_runs_once_iff (run : (machine φ).Run past s) (one : s.outcomes.length = 1)
    (done : s.call 0 = .returned) :
    EachRunsOnce past s ↔
      ∀ e ∈ past, (registers e.2).isSome = true → e.1.loaded 0 = none := by
  obtain ⟨order, walks⟩ := run_walks run
  constructor
  · rintro ⟨once, -⟩ e recorded registered
    obtain ⟨link, registered⟩ := Option.isSome_iff_exists.1 registered
    have times := timesRun_eq run one done recorded registered
    rw [once e recorded link registered] at times
    by_contra read
    simp [read] at times
  · intro early
    refine ⟨?_, walks.saw⟩
    intro e recorded link registered
    have times := timesRun_eq run one done recorded registered
    simpa [early e recorded (by simp [registered])] using times

/-- One callback registered before the settling section, one after it: both run. -/
theorem two_callbacks_run_once :
    ∃ past s, (machine Unit).Run past s ∧ s.executed.length = 2 ∧ EachRunsOnce past s := by
  obtain ⟨past, s, run, seen⟩ := Machine.exists_run_of_exec (M := machine Unit)
    (p := fun r => decide (r.2.outcomes.length = 1) && decide (r.2.call 0 = .returned) &&
      decide (r.2.executed.length = 2) &&
      r.1.all fun e => (registers e.2).isNone || (e.1.loaded 0).isNone)
    [.addCallback 0 (some ()) (some 7), .settle (.fulfill (some 5)), .walk 0 .assertResolved,
      .addCallback 1 (some ()) (some 8), .walk 0 .load, .walk 0 .execute, .walk 0 .next,
      .walk 0 .execute, .walk 0 .next, .walk 0 .finish] (by decide)
  simp only [Bool.and_eq_true, decide_eq_true_eq, List.all_eq_true, Bool.or_eq_true,
    Option.isNone_iff_eq_none] at seen
  obtain ⟨⟨⟨one, done⟩, two⟩, early⟩ := seen
  refine ⟨past, s, run, two, (each_runs_once_iff run one done).2 ?_⟩
  intro e recorded registered
  apply (early e recorded).resolve_left
  intro not_
  simp [not_] at registered

/-- Registered when the walk is over, a callback never runs. -/
theorem registered_after_walk :
    ∃ past s, (machine Unit).Run past s ∧ s.outcomes.length = 1 ∧ s.call 0 = .returned ∧
      ¬ EachRunsOnce past s := by
  obtain ⟨past, s, run, seen⟩ := Machine.exists_run_of_exec (M := machine Unit)
    (p := fun r => decide (r.2.outcomes.length = 1) && decide (r.2.call 0 = .returned) &&
      decide (r.2.timesRun 3 = 0) && r.1.any fun e => decide (registers e.2 = some 3))
    [.settle (.fulfill (some 5)), .walk 0 .assertResolved, .walk 0 .load, .walk 0 .finish,
      .addCallback 3 (some ()) (some 7)] (by decide)
  simp only [Bool.and_eq_true, decide_eq_true_eq, List.any_eq_true] at seen
  obtain ⟨⟨⟨one, done⟩, never⟩, e, recorded, registered⟩ := seen
  refine ⟨past, s, run, one, done, ?_⟩
  intro once
  have ran := once.1 e recorded 3 registered
  omega

end SharedFuture

end Cfutures
