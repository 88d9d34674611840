/-
# Pool.Results -- every future gets the result of its own task

Read off the ledger: a closure's function is called at most once, with the
submission's argument, and the future is settled only afterwards, with what that
call returned (`own_result`).  Once settled it stays so, since every later state of
the run has a ledger too and outcomes are only ever added.
-/
import Cfutures.Pool.Ledger
import Cfutures.Future.Settlement

namespace Cfutures

open Cfutures.Theory

set_option autoImplicit false

universe u v

namespace Pool

variable {n : Nat} {F : Type u} {U : Type v} {s t : Pool n F U} {i c : Addr} {w : Fin n}
variable {past more : List (Pool n F U × PoolAction n F U)} {l : List Addr}

/-- The four things a closure's life can be. -/
theorem Ledger.life_cases (ledger : s.Ledger) (c : Addr) :
    s.life c = .untouched ∨ ∃ task, s.submissions[c]? = some task ∧
      (s.life c = .called task ∨ ∃ value, s.life c = .answered task value ∨
        s.life c = .settled task value) := by
  by_cases delivered : c ∈ s.delivered
  · obtain ⟨d, member, rfl⟩ := List.mem_map.1 delivered
    by_cases busy : s.Busy d
    · rcases busy with holds | ⟨⟨item, holding⟩, last⟩
      · obtain ⟨task, submitted, expects⟩ := ledger.fits _ _ holds
        cases place : s.worker d.consumer with
        | popping => simp [place, Worker.closure] at holds
        | fetched c => exact Or.inl (by simpa [place, Worker.Expects] using expects)
        | running c =>
            rw [place] at expects
            exact Or.inr ⟨task, submitted, Or.inl expects⟩
        | ran c value =>
            rw [place] at expects
            exact Or.inr ⟨task, submitted, Or.inr ⟨value, Or.inl expects⟩⟩
        | fulfilling c f value =>
            rw [place] at expects
            exact Or.inr ⟨task, submitted, Or.inr ⟨value, Or.inl expects.2⟩⟩
        | settling c f k =>
            rw [place] at expects
            obtain ⟨-, -, value, settled⟩ := expects
            exact Or.inr ⟨task, submitted, Or.inr ⟨value, Or.inr settled⟩⟩
        | releasing c =>
            rw [place] at expects
            obtain ⟨value, settled⟩ := expects
            exact Or.inr ⟨task, submitted, Or.inr ⟨value, Or.inr settled⟩⟩
        | terminated ending =>
            cases ending with
            | waiting woken => simp [place, Worker.closure] at holds
            | task c =>
                rw [place] at expects
                exact Or.inr ⟨task, submitted, Or.inl expects⟩
            | callback c =>
                rw [place] at expects
                obtain ⟨value, settled⟩ := expects
                exact Or.inr ⟨task, submitted, Or.inr ⟨value, Or.inr settled⟩⟩
      · exact Or.inl (ledger.held _ item d holding last)
    · obtain ⟨task, value, submitted, settled⟩ := ledger.finished d member busy
      exact Or.inr ⟨task, submitted, Or.inr ⟨value, Or.inr settled⟩⟩
  · exact Or.inl (ledger.waiting c delivered)

/-- A future with an outcome belongs to a closure that is settled. -/
theorem Ledger.settled_of_outcome (ledger : s.Ledger) (settled : (s.futures c).outcomes ≠ []) :
    ∃ task value, s.submissions[c]? = some task ∧ s.life c = .settled task value := by
  rcases ledger.life_cases c with life | ⟨task, submitted, life | ⟨value, life | life⟩⟩
  · exact absurd (congrArg Life.outcomes life) settled
  · exact absurd (congrArg Life.outcomes life) settled
  · exact absurd (congrArg Life.outcomes life) settled
  · exact ⟨task, value, submitted, life⟩

theorem resolved_iff (run : (machine n F U).Run past s) (i : Addr) :
    futureIsResolved (s.futures i).future = true ↔ (s.futures i).outcomes ≠ [] := by
  obtain ⟨order, walks⟩ := SharedFuture.run_walks (run_future run i)
  exact walks.resolved

/-- The future of a settled closure shows the value. -/
theorem shown_of_settled (run : (machine n F U).Run past s) {task : F × Ptr} {value : Ptr}
    (life : s.life i = .settled task value) :
    (Outcome.fulfill value).ShownBy (s.futures i).future :=
  (SharedFuture.shown_of_single (run_future run i)).2 _ (congrArg Life.outcomes life)

/-- A future that has an outcome keeps one. -/
theorem outcomes_stay (steps : (machine n F U).Steps s more t)
    (settled : (s.futures i).outcomes ≠ []) : (t.futures i).outcomes ≠ [] := by
  have kept := SharedFuture.outcomes_prefix (Machine.Steps.project (projects_future i) steps)
  intro none_
  rw [none_, List.prefix_nil] at kept
  exact settled kept

/-- What has been settled stays settled, with the same value. -/
theorem settled_stays (run : (machine n F U).Run past s) {task : F × Ptr} {value : Ptr}
    (life : s.life i = .settled task value) (steps : (machine n F U).Steps s more t) :
    t.resultsOf i = [value] ∧ (Outcome.fulfill value).ShownBy (t.futures i).future := by
  have later := run.append steps
  have first : (s.futures i).outcomes = [.fulfill value] := congrArg Life.outcomes life
  have outcomes : [.fulfill value] <+: (t.futures i).outcomes := by
    have kept := SharedFuture.outcomes_prefix (Machine.Steps.project (projects_future i) steps)
    rwa [first] at kept
  have settled : (t.futures i).outcomes ≠ [] := outcomes_stay steps (by simp [first])
  obtain ⟨task', value', -, life'⟩ := (run_ledger later).settled_of_outcome settled
  rw [show (t.futures i).outcomes = _ from congrArg Life.outcomes life'] at outcomes
  obtain rfl : value = value' := by simpa [Life.settled] using outcomes
  exact ⟨congrArg Life.results life', shown_of_settled later life'⟩

/-- **Every future gets the result of its own task, and each task runs at most
once**: the closure of a submission is delivered at most once, its function is
called at most once and with the submission's argument, and its future is resolved
only when that call has returned a value, with which it is fulfilled from then on. -/
theorem own_result (run : (machine n F U).Run past s) (i : Addr) :
    (s.delivered.count i ≤ 1 ∧ (s.callsOf i).length ≤ 1 ∧
        ∀ task ∈ s.callsOf i, s.submissions[i]? = some task) ∧
      (futureIsResolved (s.futures i).future = true →
        ∃ value, (s.callsOf i).length = 1 ∧ s.resultsOf i = [value] ∧
          (Outcome.fulfill value).ShownBy (s.futures i).future ∧
          ∀ more t, (machine n F U).Steps s more t →
            t.resultsOf i = [value] ∧ (Outcome.fulfill value).ShownBy (t.futures i).future) := by
  have ledger := run_ledger run
  obtain ⟨l, sound⟩ := WorkQueue.run_sound (run_queue run)
  refine ⟨⟨List.nodup_iff_count_le_one.1 (delivered_nodup (run_wired run) sound) i, ?_⟩,
    ?_⟩
  · rcases ledger.life_cases i with life | ⟨task, submitted, life | ⟨value, life | life⟩⟩ <;>
      have calls : s.callsOf i = _ := congrArg Life.calls life <;>
      simp_all [Life.untouched, Life.called, Life.answered, Life.settled]
  · intro resolved
    obtain ⟨task, value, submitted, life⟩ :=
      ledger.settled_of_outcome ((resolved_iff run i).1 resolved)
    have calls : s.callsOf i = [task] := congrArg Life.calls life
    refine ⟨value, by simp [calls], congrArg Life.results life, shown_of_settled run life,
      fun more t steps => settled_stays run life steps⟩

/-- Two workers, two submissions: the second is finished first, each with its own
value. -/
theorem two_tasks_own_results :
    ∃ past s, (machine 2 String Unit).Run past s ∧
      s.resultsOf 0 = [some 15] ∧ (Outcome.fulfill (some 15)).ShownBy (s.futures 0).future ∧
      s.resultsOf 1 = [some 20] ∧ (Outcome.fulfill (some 20)).ShownBy (s.futures 1).future := by
  obtain ⟨past, s, run, seen⟩ := Machine.exists_run_of_exec (M := machine 2 String Unit)
    (p := fun r => (r.2.futures 0).future.isResolved && (r.2.futures 1).future.isResolved &&
      decide (r.2.resultsOf 0 = [some 15]) && decide (r.2.resultsOf 1 = [some 20]))
    [.execute "multiply" (some 5), .enqueue 0 0 none, .addCleanup 0 0,
      .execute "multiply" (some 10), .enqueue 1 1 none, .addCleanup 1 0,
      .pop 1 .pop, .pop 0 .pop, .pop 0 .return, .pop 1 .return,
      .work 0 .call, .work 1 .call, .work 0 (.ret (some 20)), .work 0 .fulfill, .work 0 .settle,
      .work 1 (.ret (some 15)), .work 1 .fulfill, .work 1 .settle] (by decide)
  simp only [Bool.and_eq_true, decide_eq_true_eq] at seen
  obtain ⟨⟨⟨first, second⟩, results⟩, results'⟩ := seen
  obtain ⟨value, -, same, shown, -⟩ := (own_result run 0).2 first
  obtain ⟨value', -, same', shown', -⟩ := (own_result run 1).2 second
  rw [results, List.cons.injEq] at same
  rw [results', List.cons.injEq] at same'
  exact ⟨past, s, run, results, same.1 ▸ shown, results', same'.1 ▸ shown'⟩

end Pool

end Cfutures
