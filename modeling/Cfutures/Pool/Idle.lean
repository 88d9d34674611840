/-
# Pool.Idle -- what is left undone when every worker is asleep

When every worker is asleep in `queue_pop` and nobody has been signalled, the
chain from `head` is empty (`Covered`), every delivered closure is settled
(`Ledger.finished`), and so the futures left unresolved are exactly those whose
closures the queue has dropped.  It drops one at every enqueue on a list whose
`tail` a pop has set to NULL (`WorkQueue.severs`), and at no other step.
-/
import Cfutures.Pool.Results
import Cfutures.Queue.Wakeup

namespace Cfutures

open Cfutures.Theory

set_option autoImplicit false

universe u v

namespace Pool

variable {n : Nat} {F : Type u} {U : Type v} {s t : Pool n F U} {i c : Addr} {w : Fin n}
variable {past : List (Pool n F U × PoolAction n F U)} {l : List Addr}

/-- Every worker is asleep with no wake-up on its way, and no `future_pool_execute`
is in progress. -/
def Idle (s : Pool n F U) : Prop :=
  (∀ w, s.worker w = .popping ∧ s.workQueue.phase w = .asleep) ∧
    ∀ i < s.submissions.length, s.stage i ≠ .created ∧ s.stage i ≠ .enqueued

instance (s : Pool n F U) : Decidable s.Idle :=
  inferInstanceAs (Decidable ((∀ w, s.worker w = .popping ∧ s.workQueue.phase w = .asleep) ∧
    ∀ i < s.submissions.length, s.stage i ≠ .created ∧ s.stage i ≠ .enqueued))

/-- The step enqueues a closure while `head` is set and `tail` is NULL. -/
def severs (s : Pool n F U) (a : PoolAction n F U) : Bool :=
  match s.queueAction a with
  | some b => s.workQueue.severs b
  | none => false

theorem severs_project (past : List (Pool n F U × PoolAction n F U)) :
    (∀ e ∈ Machine.projectPast Pool.workQueue queueAction past, e.1.severs e.2 = false) ↔
      ∀ e ∈ past, e.1.severs e.2 = false := by
  constructor
  · intro never e recorded
    cases named : e.1.queueAction e.2 with
    | none => simp [severs, named]
    | some b =>
        have here := never (e.1.workQueue, b)
          ((Machine.mem_projectPast _ _).2 ⟨e, recorded, named, rfl⟩)
        simpa [severs, named] using here
  · intro never e recorded
    obtain ⟨d, member, named, same⟩ := (Machine.mem_projectPast _ _).1 recorded
    have here := never d member
    rw [← same]
    simpa [severs, named] using here

/-- Idle workers have finished whatever they were given. -/
theorem Ledger.settled_of_idle (ledger : s.Ledger) (idle : s.Idle) (delivered : c ∈ s.delivered) :
    (s.futures c).outcomes ≠ [] := by
  obtain ⟨d, member, rfl⟩ := List.mem_map.1 delivered
  have notBusy : ¬ s.Busy d := by
    obtain ⟨popping, asleep⟩ := idle.1 d.consumer
    rintro (holds | ⟨⟨item, holding⟩, -⟩)
    · simp [popping, Worker.closure] at holds
    · simp [asleep] at holding
  obtain ⟨task, value, -, life⟩ := ledger.finished d member notBusy
  rw [show (s.futures d.value).outcomes = _ from congrArg Life.outcomes life]
  simp [Life.settled]

/-- An idle pool has resolved every returned future if and only if every closure
enqueued has been delivered. -/
theorem all_resolved_iff (run : (machine n F U).Run past s) (idle : s.Idle) :
    (∀ i, (s.stage i).isReturned = true → futureIsResolved (s.futures i).future = true) ↔
      s.workQueue.enqueued.length ≤ s.workQueue.delivered.length := by
  have ledger := run_ledger run
  have wired := run_wired run
  obtain ⟨l, sound⟩ := WorkQueue.run_sound (run_queue run)
  have sub := delivered_sublist sound
  have sizes : s.delivered.length = s.workQueue.delivered.length := List.length_map ..
  constructor
  · intro all
    have every : s.workQueue.enqueued ⊆ s.delivered := by
      intro c enqueued
      have queued := (wired.queued c).1 enqueued
      have returned : (s.stage c).isReturned = true := by
        have born : s.stage c ≠ .unborn := fun unborn => by simp [unborn, Stage.isQueued] at queued
        have through := idle.2 c ((wired.born c).1 born)
        cases stage : s.stage c <;> simp_all [Stage.isQueued, Stage.isReturned]
      by_contra notDelivered
      have untouched := ledger.waiting c notDelivered
      exact (resolved_iff run c).1 (all c returned) (congrArg Life.outcomes untouched)
    have bound := (List.subperm_of_subset wired.once every).length_le
    omega
  · intro bound i returned
    have whole := sub.eq_of_length_le (by omega)
    have delivered : i ∈ s.delivered := by
      rw [whole]
      exact (wired.queued i).2 (Stage.isQueued_of_isReturned returned)
    exact (resolved_iff run i).2 (ledger.settled_of_idle idle delivered)

/-- **An idle pool has stranded no task exactly in the runs that never sever the
queue**: whenever every worker is asleep, none signalled, and no
`future_pool_execute` is in progress, every future returned is resolved if and only
if no closure was enqueued while `head` was set and `tail` NULL. -/
theorem idle_resolved_iff (workers : 0 < n) (run : (machine n F U).Run past s) (idle : s.Idle) :
    (∀ i, (s.stage i).isReturned = true → futureIsResolved (s.futures i).future = true) ↔
      ∀ e ∈ past, e.1.severs e.2 = false := by
  obtain ⟨l, sound, even, -⟩ := WorkQueue.run_deficit (run_queue run)
  obtain ⟨m, sound', covered⟩ := WorkQueue.run_covered (run_queue run)
  obtain rfl := sound.shaped.holds.unique sound'.shaped.holds
  obtain rfl := covered.chain_empty (c := ⟨0, workers⟩) (idle.1 _).2 fun w => by
    rw [(idle.1 w).2]
    rfl
  rw [all_resolved_iff run idle, ← severs_project, ← even]
  simp only [WorkQueue.deficit, List.length_nil, Nat.add_zero, Nat.sub_eq_zero_iff_le]

/-- Two tasks on one worker, one after the other. -/
theorem two_tasks_resolved :
    ∃ past s, (machine 1 String Unit).Run past s ∧ s.Idle ∧ (s.stage 1).isReturned = true ∧
      futureIsResolved (s.futures 1).future = true := by
  obtain ⟨past, s, run, seen⟩ := Machine.exists_run_of_exec (M := machine 1 String Unit)
    (p := fun r => decide r.2.Idle && (r.2.stage 1).isReturned &&
      r.1.all fun e => !e.1.severs e.2)
    (executeCall 0 "multiply" (some 5) ++ executorTurn 0 (some 15) 1 ++
      executeCall 1 "multiply" (some 10) ++ executorTurn 0 (some 20) 1 ++ [.pop 0 .pop])
    (by decide)
  simp only [Bool.and_eq_true, decide_eq_true_eq, List.all_eq_true, Bool.not_eq_true'] at seen
  obtain ⟨⟨idle, returned⟩, never⟩ := seen
  exact ⟨past, s, run, idle, returned, (idle_resolved_iff (by decide) run idle).2 never 1 returned⟩

/-- Three tasks on one worker, the third submitted when the first has been taken:
the worker runs two of them and goes to sleep. -/
theorem third_task_stranded :
    ∃ past s, (machine 1 String Unit).Run past s ∧ s.destroyer = .idle ∧ s.Idle ∧
      (s.stage 2).isReturned = true ∧ futureIsResolved (s.futures 2).future = false := by
  obtain ⟨past, s, run, seen⟩ := Machine.exists_run_of_exec (M := machine 1 String Unit)
    (p := fun r => decide (r.2.destroyer = .idle) && decide r.2.Idle &&
      (r.2.stage 2).isReturned && !futureIsResolved (r.2.futures 2).future)
    (executeCall 0 "multiply" (some 5) ++ executeCall 1 "multiply" (some 10) ++
      [.pop 0 .pop] ++ executeCall 2 "multiply" (some 3) ++
      (executorTurn 0 (some 15) 1).tail ++ executorTurn 0 (some 20) 1 ++ [.pop 0 .pop])
    (by decide)
  simp only [Bool.and_eq_true, decide_eq_true_eq, Bool.not_eq_true'] at seen
  exact ⟨past, s, run, seen.1.1.1, seen.1.1.2, seen.1.2, seen.2⟩

end Pool

end Cfutures
