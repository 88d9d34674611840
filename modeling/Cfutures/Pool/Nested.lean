/-
# Pool.Nested -- tasks that wait for other tasks

A task function may call `future_get` on the future of another task, and its worker does
nothing else until that is resolved.  The queue hands out closures in the order they were
put in, so the task waited for is with a worker, or done, if it was put in first and has
not been dropped.  Among the tasks that wait, the one put in first waits for nobody: while
no teardown begins, no number of workers is too small (`ordered_waits_rest`).

With the order the other way round one worker is enough to be stuck
(`unordered_wait_stuck`).
-/
import Cfutures.Pool.Progress

namespace Cfutures

open Cfutures.Theory

set_option autoImplicit false

universe u v

namespace Pool

variable {n : Nat} {F : Type u} {U : Type v} {s t : Pool n F U} {i j c : Addr} {w : Fin n}
variable {past more : List (Pool n F U × PoolAction n F U)} {waitsFor : Addr → List Addr}

/-- The task of the worker, which waits for the futures `waitsFor` lists before it
returns, has one left to wait for. -/
def HeldUp (waitsFor : Addr → List Addr) (s : Pool n F U) (w : Fin n) : Prop :=
  ∃ c, s.worker w = .running c ∧ ∃ j ∈ waitsFor c, futureIsResolved (s.futures j).future = false

/-- Tasks wait only for tasks that were put into the queue before them, and that the
queue has not dropped. -/
def WaitsInOrder (waitsFor : Addr → List Addr) (s : Pool n F U) : Prop :=
  ∀ c, ∀ j ∈ waitsFor c, c ∈ s.delivered →
    s.workQueue.enqueued.idxOf j < s.workQueue.enqueued.idxOf c ∧ ¬ s.Dropped j

/-- Of two values of which the first stands before the second. -/
theorem idxOf_lt_of_sublist {l : List Addr} (once : l.Nodup) {a b : Addr} {xs ys : List Addr}
    (sub : (xs ++ ys).Sublist l) (first : a ∈ xs) (second : b ∈ ys) : l.idxOf a < l.idxOf b := by
  have ordered : l.Pairwise fun a b => l.idxOf a < l.idxOf b := by
    rw [List.pairwise_iff_getElem]
    intro i j early late less
    rwa [once.idxOf_getElem, once.idxOf_getElem]
  exact (List.pairwise_append.1 (ordered.sublist sub)).2.2 a first b second

/-- What was delivered was put in before what is still on the chain. -/
theorem delivered_before_chain (run : (machine n F U).Run past s) (delivered : c ∈ s.delivered)
    (onChain : s.workQueue.OnChain j) :
    s.workQueue.enqueued.idxOf c < s.workQueue.enqueued.idxOf j := by
  obtain ⟨l, sound⟩ := WorkQueue.run_sound (run_queue run)
  have order := sound.order.map Prod.fst
  rw [List.zipIdx_map_fst, List.map_append, List.map_map] at order
  exact idxOf_lt_of_sublist (run_wired run).once order delivered (sound.onChain_iff.1 onChain)

/-- A delivered closure whose future is not resolved is with a worker that holds it. -/
theorem holder_of_unresolved (run : (machine n F U).Run past s) (delivered : c ∈ s.delivered)
    (unresolved : futureIsResolved (s.futures c).future = false) :
    ∃ w, (s.worker w).closure = some c ∨ ∃ item, s.workQueue.phase w = .holding item := by
  obtain ⟨d, member, rfl⟩ := List.mem_map.1 delivered
  by_contra nobody
  rw [not_exists] at nobody
  have notBusy : ¬ s.Busy d := by
    rintro (holds | ⟨holding, -⟩)
    · exact nobody d.consumer (Or.inl holds)
    · exact nobody d.consumer (Or.inr holding)
  obtain ⟨task, value, -, life⟩ := (run_ledger run).finished d member notBusy
  have settled : (s.futures d.value).outcomes ≠ [] := by
    rw [show (s.futures d.value).outcomes = _ from congrArg Life.outcomes life]
    simp [Life.settled]
  have resolved := (resolved_iff run d.value).2 settled
  rw [unresolved] at resolved
  cases resolved

/-- Of the tasks of a pool at rest, none waits, if all wait in order. -/
theorem AtRest.not_heldUp (atRest : s.AtRest (s.HeldUp waitsFor))
    (run : (machine n F U).Run past s) (alive : s.aborted = false) (idle : s.destroyer = .idle)
    (inOrder : s.WaitsInOrder waitsFor) : ¬ s.HeldUp waitsFor w := by
  obtain ⟨l, torn⟩ := run_torn run
  rintro ⟨c, place, j, waited, unresolved⟩
  -- the task that stands first in the queue among those that wait
  induction at_ : s.workQueue.enqueued.idxOf c using Nat.strong_induction_on
    generalizing c j w with
  | _ position ih =>
      have ledger := run_ledger run
      have delivered : c ∈ s.delivered := ledger.mem_delivered (w := w) (by rw [place]; rfl)
      obtain ⟨earlier, notDropped⟩ := inOrder c j waited delivered
      have listed : j ∈ s.workQueue.enqueued := by
        by_contra absent
        rw [List.idxOf_eq_length absent] at earlier
        exact absurd earlier (Nat.not_lt.2 List.idxOf_le_length)
      by_cases onChain : s.workQueue.OnChain j
      · have later := delivered_before_chain run delivered onChain
        omega
      · have delivered' : j ∈ s.delivered := by
          by_contra waiting
          exact notDropped ⟨listed, waiting, onChain⟩
        obtain ⟨v, holds⟩ := holder_of_unresolved run delivered' unresolved
        have there := torn.alive_of_idle idle v
        rcases atRest.worker run alive v with gone | ⟨popping, asleep⟩ |
          ⟨-, c', place', j', waited', unresolved'⟩
        · rw [there] at gone
          cases gone
        · rcases holds with holds | ⟨item, holding⟩
          · simp [popping, Worker.closure] at holds
          · simp [asleep] at holding
        · obtain rfl : c' = j := by
            rcases holds with holds | ⟨item, holding⟩
            · simpa [place', Worker.closure] using holds
            · have phase := ledger.phase v
              rw [place', holding] at phase
              cases phase
          exact ih _ (at_ ▸ earlier) c' place' j' waited' unresolved' rfl

/-- **Tasks that wait only for tasks queued before them never hold each other up.**  No
teardown has begun and every future destroyed was destroyed in time.  When a pool that its
callers leave alone has no step left but the return of a task that still waits, there is
none that does: its work is done as if no task ever waited. -/
theorem ordered_waits_rest (workers : 0 < n) (run : (machine n F U).Run past s)
    (inTime : ∀ e ∈ past, e.1.destroysInTime e.2 = true) (idle : s.destroyer = .idle)
    (steps : (machine n F U).Steps s more t) (own : ∀ e ∈ more, internal e.2 = true)
    (inOrder : t.WaitsInOrder waitsFor) (atRest : t.AtRest (t.HeldUp waitsFor))
    (alive : t.aborted = false) :
    NoLateTouch (past ++ more) ∧ (∀ w, t.Asleep w) ∧
      ∀ i ∈ s.workQueue.enqueued, ¬ s.Dropped i →
        futureIsResolved (t.futures i).future = true := by
  have later := run.append steps
  have idle' := idle_steps steps own idle
  obtain ⟨l, torn⟩ := run_torn later
  have asleep : ∀ w, t.Asleep w := by
    intro w
    rcases atRest.worker later alive w with gone | asleep | ⟨-, heldUp⟩
    · rw [torn.alive_of_idle idle' w] at gone
      cases gone
    · exact asleep
    · exact absurd heldUp (atRest.not_heldUp later alive idle' inOrder)
  exact ⟨noLateTouch_of_inTime later (inTime_append inTime own), asleep,
    fun i enqueued notDropped => resolved_at_rest workers run steps own asleep enqueued notDropped⟩

/-- One worker, and the second task waits for the first. -/
theorem ordered_waits_rest_one :
    ∃ past s more t, (machine 1 String Unit).Run past s ∧
      (machine 1 String Unit).Steps s more t ∧
      futureIsResolved (s.futures 1).future = false ∧ NoLateTouch (past ++ more) ∧
      futureIsResolved (t.futures 1).future = true := by
  obtain ⟨past, s, more, t, run, steps, actions, seen⟩ :=
    Machine.exists_steps_of_exec (M := machine 1 String Unit)
      (p := fun r t => !futureIsResolved (r.2.futures 1).future && decide (r.2.destroyer = .idle) &&
        decide (t.destroyer = .idle) &&
        decide (∀ w, t.worker w = .popping ∧ t.workQueue.phase w = .asleep) && !t.aborted &&
        decide (r.2.workQueue.enqueued = [0, 1]) && decide (t.workQueue.enqueued = [0, 1]) &&
        decide (t.delivered = [0, 1]) && (r.1.all fun e => !e.1.severs e.2) &&
        r.1.all fun e => e.1.destroysInTime e.2)
      (executeCall 0 "multiply" (some 5) ++ executeCall 1 "wait for 0" none)
      (executorTurn 0 (some 15) 1 ++ executorTurn 0 (some 20) 1 ++ [.pop 0 .pop]) (by decide)
  simp only [Bool.and_eq_true, decide_eq_true_eq, Bool.not_eq_true', List.all_eq_true] at seen
  obtain ⟨⟨⟨⟨⟨⟨⟨⟨⟨pending, idle⟩, idle'⟩, asleep⟩, alive⟩, enqueued⟩, enqueued'⟩, delivered⟩,
    never⟩, inTime⟩ := seen
  have own : ∀ e ∈ more, internal e.2 = true := by
    intro e member
    have listed : e.2 ∈ more.map Prod.snd := List.mem_map_of_mem member
    rw [actions] at listed
    exact List.all_eq_true.1 (by decide) e.2 listed
  have inOrder : t.WaitsInOrder fun c => if c = 1 then [0] else [] := by
    intro c j waited _
    obtain ⟨rfl, rfl⟩ : c = 1 ∧ j = 0 := by simpa using waited
    refine ⟨by rw [enqueued']; decide, ?_⟩
    rintro ⟨-, waiting, -⟩
    rw [delivered] at waiting
    exact waiting (by decide)
  have atRest : t.AtRest (t.HeldUp fun c => if c = 1 then [0] else []) :=
    atRest_of_parked (run.append steps) idle' fun w => Or.inl (asleep w)
  obtain ⟨untouched, -, resolved⟩ :=
    ordered_waits_rest (by decide) run inTime idle steps own inOrder atRest alive
  exact ⟨past, s, more, t, run, steps, pending, untouched,
    resolved 1 (by simp [enqueued]) (not_dropped run never 1)⟩

/-- One worker, and the first task waits for the second: nothing is left to do, and
neither is finished. -/
theorem unordered_wait_stuck :
    ∃ past s, (machine 1 String Unit).Run past s ∧ (∀ i, ¬ s.Dropped i) ∧
      s.AtRest (s.HeldUp fun c => if c = 0 then [1] else []) ∧
      futureIsResolved (s.futures 0).future = false ∧
      futureIsResolved (s.futures 1).future = false := by
  obtain ⟨past, s, run, seen⟩ := Machine.exists_run_of_exec (M := machine 1 String Unit)
    (p := fun r => decide (r.2.destroyer = .idle) && decide (∀ w, r.2.worker w = .running 0) &&
      !futureIsResolved (r.2.futures 0).future && !futureIsResolved (r.2.futures 1).future &&
      r.1.all fun e => !e.1.severs e.2)
    (executeCall 0 "wait for 1" none ++ executeCall 1 "multiply" (some 5) ++
      [.pop 0 .pop, .pop 0 .return, .work 0 .call]) (by decide)
  simp only [Bool.and_eq_true, decide_eq_true_eq, Bool.not_eq_true', List.all_eq_true] at seen
  obtain ⟨⟨⟨⟨idle, running⟩, first⟩, second⟩, never⟩ := seen
  refine ⟨past, s, run, not_dropped run never, ?_, first, second⟩
  apply atRest_of_parked run idle
  intro w
  exact Or.inr ⟨⟨0, running w⟩, 0, running w, 1, by simp, second⟩

end Pool

end Cfutures
