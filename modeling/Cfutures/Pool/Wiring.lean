/-
# Pool.Wiring -- submissions, and the records that carry them

`Wired s`: the closures on record are those of submissions, each with its own
function, argument and promise, and each promise with its own future; a submission
has put its closure into the queue once, or not yet, and its `stage` says which.

Steps that leave these alone share one lemma (`Wired.of_same`); what is left is
the three steps of `future_pool_execute`, `future_destroy` and `free (closure)`.
-/
import Cfutures.Pool.Projection

namespace Cfutures

open Cfutures.Theory

set_option autoImplicit false

universe u v

/-- The closure has been handed to `queue_enqueue`. -/
def Stage.isQueued : Stage → Bool
  | .unborn | .created => false
  | .enqueued | .returned | .destroyed => true

/-- `future_pool_execute` has returned the future. -/
def Stage.isReturned : Stage → Bool
  | .returned | .destroyed => true
  | _ => false

theorem Stage.isQueued_of_isReturned {stage : Stage} (returned : stage.isReturned = true) :
    stage.isQueued = true := by
  cases stage <;> simp_all [Stage.isQueued, Stage.isReturned]

namespace Pool

variable {n : Nat} {F : Type u} {U : Type v} {s t : Pool n F U} {i : Addr} {w : Fin n}
variable {past : List (Pool n F U × PoolAction n F U)}

structure Wired (s : Pool n F U) : Prop where
  born : ∀ i, s.stage i ≠ .unborn ↔ i < s.submissions.length
  queued : ∀ i, i ∈ s.workQueue.enqueued ↔ (s.stage i).isQueued = true
  once : s.workQueue.enqueued.Nodup
  closure : ∀ c closure, s.closures c = some closure →
    closure.promise = c ∧ s.submissions[c]? = some (closure.fn, closure.args)
  promise : ∀ p promise, s.promises p = some promise → promise.future = p

theorem start_wired : (start n F U).Wired where
  born i := by simp [start]
  queued i := by simp [start, WorkQueue.start, Stage.isQueued]
  once := List.nodup_nil
  closure c closure present := by simp [start] at present
  promise p promise present := by simp [start] at present

theorem Wired.of_same (wired : s.Wired) (stage : t.stage = s.stage)
    (submissions : t.submissions = s.submissions)
    (enqueued : t.workQueue.enqueued = s.workQueue.enqueued)
    (closures : ∀ c closure, t.closures c = some closure → s.closures c = some closure)
    (promises : t.promises = s.promises) : t.Wired where
  born i := by rw [stage, submissions]; exact wired.born i
  queued i := by rw [stage, enqueued]; exact wired.queued i
  once := by rw [enqueued]; exact wired.once
  closure c closure present := by
    rw [submissions]
    exact wired.closure c closure (closures c closure present)
  promise p promise present := wired.promise p promise (promises ▸ present)

/-- A submission moves on, its closure in the queue before and after. -/
theorem Wired.setStage (wired : s.Wired) (stage : Stage) (before : (s.stage i).isQueued = true)
    (after : stage.isQueued = true) : (s.setStage i stage).Wired where
  born j := by
    by_cases same : j = i
    · subst same
      have unborn : stage ≠ .unborn := by rintro rfl; cases after
      have unborn' : s.stage j ≠ .unborn := fun none_ => by simp [none_, Stage.isQueued] at before
      simpa [Pool.setStage, unborn] using (wired.born j).1 unborn'
    · simpa [Pool.setStage, same] using wired.born j
  queued j := by
    by_cases same : j = i
    · subst same
      simpa [Pool.setStage, after] using (wired.queued j).2 before
    · simpa [Pool.setStage, same] using wired.queued j
  once := wired.once
  closure := wired.closure
  promise := wired.promise

theorem Wired.execute (wired : s.Wired) {fn : F} {args : Ptr}
    (taken : s.Takes (.execute fn args) t) : t.Wired := by
  cases taken
  have new : s.stage s.submissions.length = .unborn := by
    by_contra born
    exact absurd ((wired.born _).1 born) (lt_irrefl _)
  refine ⟨?born, ?queued, wired.once, ?closure, ?promise⟩
  case born =>
    intro j
    have before := wired.born j
    by_cases same : j = s.submissions.length
    · simp [Pool.setStage, same]
    · simp only [Pool.setStage, Function.update_of_ne same, List.length_append,
        List.length_singleton, before]
      exact ⟨Nat.lt_succ_of_lt, fun later => Nat.lt_of_le_of_ne (Nat.le_of_lt_succ later) same⟩
  case queued =>
    intro j
    by_cases same : j = s.submissions.length
    · subst same
      have notYet := wired.queued s.submissions.length
      rw [new] at notYet
      simpa [Pool.setStage, Stage.isQueued] using notYet
    · simpa [Pool.setStage, same] using wired.queued j
  case closure =>
    intro c closure present
    simp only [Pool.setStage, Store.put_apply] at present ⊢
    split at present
    · cases present
      simp_all
    · have here := wired.closure c closure present
      have early : c < s.submissions.length := (List.getElem?_eq_some_iff.1 here.2).1
      rw [List.getElem?_append_left early]
      exact here
  case promise =>
    intro p promise present
    simp only [Pool.setStage, Store.put_apply] at present
    split at present
    · cases present
      simp_all
    · exact wired.promise p promise present

theorem Wired.enqueue (wired : s.Wired) {item : Addr} {wake : Option (Fin n)}
    (taken : s.Takes (.enqueue i item wake) t) : t.Wired := by
  cases taken
  rename_i workQueue created taken
  obtain ⟨-, queue, phase, -, -, rfl⟩ := WorkQueue.enqueueStep_cases taken
  have fresh : i ∉ s.workQueue.enqueued := by simp [wired.queued, created, Stage.isQueued]
  refine ⟨?born, ?queued, ?once, wired.closure, wired.promise⟩
  case born =>
    intro j
    by_cases same : j = i
    · subst same
      simpa [Pool.setStage, created] using wired.born j
    · simpa [Pool.setStage, same] using wired.born j
  case queued =>
    intro j
    by_cases same : j = i
    · simp [Pool.setStage, same, Stage.isQueued]
    · simpa [Pool.setStage, same] using wired.queued j
  case once =>
    simpa [Pool.setStage, List.nodup_append] using ⟨wired.once, fun _ member same =>
      fresh (same ▸ member)⟩

theorem Wired.step (wired : s.Wired) {a : PoolAction n F U} (stepped : s.step a = some t) :
    t.Wired := by
  cases step_takes stepped with
  | execute => exact wired.execute (step_takes stepped)
  | enqueue => exact wired.enqueue (step_takes stepped)
  | @addCleanup i _ _ enqueued =>
      have moved := wired.setStage (i := i) .returned (by simp [enqueued, Stage.isQueued]) rfl
      exact moved.of_same rfl rfl rfl (fun _ _ h => h) rfl
  | destroyFuture returned => exact wired.setStage _ (by simp [returned, Stage.isQueued]) rfl
  | pop _ popped =>
      obtain ⟨-, ⟨-, rfl⟩ | ⟨_, _, _, -, -, rfl⟩⟩ := WorkQueue.popStep_cases popped <;>
        exact wired.of_same rfl rfl rfl (fun _ _ h => h) rfl
  | «return» _ returned =>
      obtain ⟨_, _, -, -, same⟩ := WorkQueue.returnStep_cases returned
      cases same
      exact wired.of_same rfl rfl rfl (fun _ _ h => h) rfl
  | spurious _ woken =>
      obtain ⟨-, rfl⟩ := WorkQueue.spuriousStep_cases woken
      exact wired.of_same rfl rfl rfl (fun _ _ h => h) rfl
  | cancelledWait _ _ cancelled =>
      rcases WorkQueue.cancelStep_cases cancelled with ⟨-, _, -, rfl⟩ | ⟨-, -, rfl⟩ <;>
        exact wired.of_same rfl rfl rfl (fun _ _ h => h) rfl
  | free =>
      refine wired.of_same rfl rfl rfl (?_) rfl
      intro d closure present
      simp only [moveWorker, Store.free_apply] at present
      split at present
      · cases present
      · exact present
  | _ => exact wired.of_same rfl rfl rfl (fun _ _ h => h) rfl

/-- A future that has been returned stays returned. -/
theorem Wired.returned_stays (wired : s.Wired) {a : PoolAction n F U} (stepped : s.step a = some t)
    (returned : (s.stage i).isReturned = true) : (t.stage i).isReturned = true := by
  have moved : ∀ j stage, t.stage = Function.update s.stage j stage →
      (j = i → stage.isReturned = true) → (t.stage i).isReturned = true := by
    intro j stage same onto
    rw [same]
    by_cases here : i = j
    · subst here
      simpa using onto rfl
    · simpa [here] using returned
  rcases step_stage stepped with same | ⟨_, _, -, same⟩ | ⟨j, _, _, -, before, same⟩ |
    ⟨j, _, -, before, same⟩ | ⟨j, -, before, -, same⟩
  · rw [same]
    exact returned
  · apply moved _ _ same
    intro here
    have born : i < s.submissions.length := (wired.born i).1 fun unborn => by
      simp [unborn, Stage.isReturned] at returned
    exact absurd born (here ▸ lt_irrefl _)
  · apply moved j _ same
    intro here
    simp [← here, before, Stage.isReturned] at returned
  · exact moved j _ same fun _ => rfl
  · exact moved j _ same fun _ => rfl

/-- A destroyed future stays destroyed. -/
theorem Wired.destroyed_stays (wired : s.Wired) {a : PoolAction n F U} (stepped : s.step a = some t)
    (destroyed : s.stage i = .destroyed) : t.stage i = .destroyed := by
  have moved : ∀ j stage, t.stage = Function.update s.stage j stage → j ≠ i →
      t.stage i = .destroyed := by
    intro j stage same ne
    rw [same, Function.update_of_ne (Ne.symm ne)]
    exact destroyed
  rcases step_stage stepped with same | ⟨_, _, -, same⟩ | ⟨j, _, _, -, before, same⟩ |
    ⟨j, _, -, before, same⟩ | ⟨j, -, before, -, same⟩
  · rw [same]
    exact destroyed
  · apply moved _ _ same
    intro here
    have born : i < s.submissions.length := (wired.born i).1 (by simp [destroyed])
    exact absurd born (here ▸ lt_irrefl _)
  · exact moved j _ same fun here => by simp [← here, before] at destroyed
  · exact moved j _ same fun here => by simp [← here, before] at destroyed
  · exact moved j _ same fun here => by simp [← here, before] at destroyed

theorem run_wired (run : (machine n F U).Run past s) : s.Wired :=
  Machine.Run.invariant (I := Wired) start_wired (fun _ _ _ wired stepped => wired.step stepped) run

end Pool

end Cfutures
