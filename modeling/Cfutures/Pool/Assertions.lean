/-
# Pool.Assertions -- when an assertion fails in a pool

A pool fulfils its futures and rejects none, so `future_get` never fails an assertion on
them, and `cleanup_execute` is registered with a promise that is there.  What is left is
what callers register: while futures are destroyed in time, and so none is read after its
destruction, the process is gone exactly if a worker has come to a callback that a caller
registered without a function or without an argument (`process_aborted_iff`).  An
assertion that reads a destroyed future may find anything.
-/
import Cfutures.Pool.Enabled
import Cfutures.Pool.Lifetime
import Cfutures.Future.Assertions

namespace Cfutures

open Cfutures.Theory

set_option autoImplicit false

universe u v

namespace Pool

variable {n : Nat} {F : Type u} {U : Type v} {s t : Pool n F U} {i link : Addr} {w : Fin n}
variable {past : List (Pool n F U × PoolAction n F U)}

/-- A caller has registered callback `link` of future `i` with a null pointer. -/
def RegisteredUnfit (past : List (Pool n F U × PoolAction n F U)) (i link : Addr) : Prop :=
  ∃ e ∈ past, ∃ callbackFn args, e.2 = .client i (.addCallback link callbackFn args) ∧
    (callbackFn = none ∨ args = none)

/-- A worker has come to callback `link` of future `i`. -/
def Reached (past : List (Pool n F U × PoolAction n F U)) (i link : Addr) : Prop :=
  ∃ e ∈ past, ∃ w c k, e.2 = .work w (.walk .execute) ∧ e.1.worker w = .settling c i k ∧
    (e.1.futures i).call k = .walking (some link)

/-- The past of future `i` in a past of the pool. -/
abbrev futurePast (i : Addr) (past : List (Pool n F U × PoolAction n F U)) :
    List (SharedFuture (CallbackFn U) × FutureAction (CallbackFn U)) :=
  Machine.projectPast (fun s => s.futures i) (futureAction i) past

theorem mem_futurePast {e : SharedFuture (CallbackFn U) × FutureAction (CallbackFn U)} :
    e ∈ futurePast i past ↔ ∃ d ∈ past, d.1.futureAction i d.2 = some e.2 ∧ d.1.futures i = e.1 :=
  Machine.mem_projectPast _ _

/-- The process is gone if one of its futures has failed an assertion. -/
theorem aborted_future (run : (machine n F U).Run past s) :
    s.aborted = true ↔ ∃ i, (s.futures i).aborted = true := by
  constructor
  · intro aborted
    induction run with
    | none => cases aborted
    | @step past s a t before stepped ih =>
        have alive : ¬ s.aborted = true := (Option.ite_none_left_eq_some.1 stepped).1
        have failed : ∀ {j : Addr} {future : SharedFuture (CallbackFn U)}, future.aborted = true →
            ∃ i, (Function.update s.futures j future i).aborted = true := by
          intro j future gone
          exact ⟨j, by rwa [Function.update_self]⟩
        cases step_takes stepped with
        | addCleanup | client | settle | walk => exact failed aborted
        | _ => exact absurd aborted alive
  · rintro ⟨i, aborted⟩
    by_contra alive
    rw [run_alive run (eq_false_of_ne_true alive) i] at aborted
    cases aborted

/-- Nothing in a pool reads a future that has not been fulfilled. -/
theorem never_unfulfilled (run : (machine n F U).Run past s) (i : Addr) :
    ¬ SharedFuture.GotUnfulfilled (futurePast i past) := by
  rintro ⟨e, seen, w, gets, unfulfilled⟩
  obtain ⟨d, recorded, named, here⟩ := mem_futurePast.1 seen
  obtain ⟨before, after, t, -, upto, -, -⟩ := Machine.Steps.of_mem run recorded
  obtain ⟨_, _, u, -, upto', taken, -⟩ := Machine.Steps.of_mem (run_future run i) seen
  rw [gets] at taken
  have settled : (d.1.futures i).outcomes ≠ [] := by
    rw [here]
    exact SharedFuture.settled_of_get upto' taken
  obtain ⟨task, value, -, life⟩ := (run_ledger upto).settled_of_outcome settled
  rw [← here, show (d.1.futures i).outcomes = _ from congrArg Life.outcomes life] at unfulfilled
  cases unfulfilled

theorem registeredUnfit_iff : SharedFuture.RegisteredUnfit (futurePast i past) link ↔
    RegisteredUnfit past i link := by
  constructor
  · rintro ⟨e, seen, callbackFn, args, registers, null⟩
    obtain ⟨d, recorded, named, -⟩ := mem_futurePast.1 seen
    rw [registers] at named
    obtain ⟨_, -, same⟩ | ⟨c, byClient, same⟩ | ⟨_, _, _, -, -, same⟩ |
      ⟨_, _, _, _, -, -, same⟩ := futureAction_cases named
    · -- the clean-up has its function and its promise
      cases same
      simp at null
    · cases c with
      | addCallback link' callbackFn' args' =>
          cases same
          exact ⟨d, recorded, callbackFn', args, byClient, by simpa using null⟩
      | _ => cases same
    · cases same
    · cases same
  · rintro ⟨d, recorded, callbackFn, args, registers, null⟩
    refine ⟨(d.1.futures i, .addCallback link (callbackFn.map .user) args),
      mem_futurePast.2 ⟨d, recorded, ?_, rfl⟩, _, _, rfl, by simpa using null⟩
    simp [registers, futureAction, ClientAction.onFuture]

theorem reached_iff : SharedFuture.Reached (futurePast i past) link ↔ Reached past i link := by
  constructor
  · rintro ⟨e, seen, k, walks, place⟩
    obtain ⟨d, recorded, named, here⟩ := mem_futurePast.1 seen
    rw [walks] at named
    obtain ⟨w, c, settling, acts⟩ := walk_of_action named
    rw [← here] at place
    exact ⟨d, recorded, w, c, k, acts, settling, place⟩
  · rintro ⟨d, recorded, w, c, k, acts, settling, place⟩
    refine ⟨(d.1.futures i, .walk k .execute),
      mem_futurePast.2 ⟨d, recorded, ?_, rfl⟩, k, rfl, place⟩
    simp [acts, futureAction, settling]

theorem registered_of_aborted (run : (machine n F U).Run past s) (aborted : s.aborted = true) :
    ∃ i link, RegisteredUnfit past i link ∧ Reached past i link := by
  obtain ⟨i, gone⟩ := (aborted_future run).1 aborted
  rcases SharedFuture.cause_of_aborted (run_future run i) gone with got | ⟨link, unfit, reached⟩
  · exact absurd got (never_unfulfilled run i)
  · exact ⟨i, link, registeredUnfit_iff.1 unfit, reached_iff.1 reached⟩

/-- **In a pool whose futures are destroyed in time an assertion fails exactly when a worker
comes to a callback that a caller registered without a function or without an argument.**
No worker reads a destroyed future there, and no assertion of `future_execute_callbacks` or
`future_get` fails, nor one in the clean-up of a promise. -/
theorem process_aborted_iff (run : (machine n F U).Run past s)
    (inTime : ∀ e ∈ past, e.1.destroysInTime e.2 = true) :
    NoLateTouch past ∧
      (s.aborted = true ↔ ∃ i link, RegisteredUnfit past i link ∧ Reached past i link) := by
  refine ⟨noLateTouch_of_inTime run inTime, registered_of_aborted run, ?_⟩
  rintro ⟨i, link, unfit, reached⟩
  exact (aborted_future run).2 ⟨i, SharedFuture.reached_unfit (run_future run i)
    (registeredUnfit_iff.2 unfit) (reached_iff.2 reached)⟩

/-- One worker and two tasks: the first future is destroyed in time, on the second a caller
passes no argument to its callback. -/
theorem aborted_at_null_argument :
    ∃ past s, (machine 1 String String).Run past s ∧ s.stage 0 = .destroyed ∧
      NoLateTouch past ∧ s.aborted = true ∧
      ∃ i link, RegisteredUnfit past i link ∧ Reached past i link := by
  obtain ⟨past, s, run, seen⟩ := Machine.exists_run_of_exec (M := machine 1 String String)
    (p := fun r => r.2.aborted && decide (r.2.stage 0 = .destroyed) &&
      r.1.all fun e => e.1.destroysInTime e.2)
    (executeCall 0 "multiply" (some 5) ++ executorTurn 0 (some 15) 1 ++ getAndDestroy 0 ++
      executeCall 1 "multiply" (some 6) ++
      [.client 1 (.addCallback 1 (some "print") none)] ++ (executorTurn 0 (some 18) 1).take 9)
    (by decide)
  simp only [Bool.and_eq_true, decide_eq_true_eq, List.all_eq_true] at seen
  obtain ⟨⟨aborted, destroyed⟩, inTime⟩ := seen
  obtain ⟨untouched, cause⟩ := process_aborted_iff run inTime
  exact ⟨past, s, run, destroyed, untouched, aborted, cause.1 aborted⟩

end Pool

end Cfutures
