/-
# Pool.Teardown -- the executor list, and who has been cancelled and joined

`future_pool_new` links one executor for each worker (`start_linked`), and
`future_pool_destroy` walks the list and releases each record as it leaves it.
`Torn s l`: the records still linked from where the walk is are `l`, and every
worker that has not terminated has one of them.  At the end of the list every
worker has terminated (`Torn.all_terminated`).

A worker terminates only after its cancellation was requested, and none is
requested before the teardown begins.
-/
import Cfutures.Pool.Wiring
import Cfutures.Pool.Creation

namespace Cfutures

open Cfutures.Theory

set_option autoImplicit false

universe u v

/-! ## The list `future_pool_new` builds -/

/-- The pool's list is a chain with one executor for each of the workers `ws`. -/
def Linked {n : Nat} (pool : Ptr × Store Addr (Executor n)) (ws : List (Fin n)) : Prop :=
  ∃ l, Chain Executor.next pool.2 pool.1 l ∧ (∀ e ∈ l, ∃ w ∈ ws, w.val = e) ∧
    ∀ w ∈ ws, w.val ∈ l ∧ ∃ executor, pool.2 w.val = some executor ∧ executor.thread = some w

theorem futurePoolNew_linked (n : Nat) : Linked (futurePoolNew n) (List.finRange n) := by
  have lists := futurePoolCreate_lists fun _ : Fin n => true
  rw [futurePoolCreate_all] at lists
  refine ⟨_, lists.chain, ?_, fun w _ => ⟨by simp, lists.thread w (by simp)⟩⟩
  intro e member
  obtain ⟨w, -, rfl⟩ := List.mem_map.1 member
  exact ⟨w, by simp, rfl⟩

/-- Where the list that is still to be torn down starts. -/
def Destroyer.rest (executors : Ptr) : Destroyer → Ptr
  | .idle => executors
  | .walking next => next
  | .cancelling e _ | .joining e _ => some e
  | .atReleased _ | .done => none

theorem Destroyer.rest_of_gone {d : Destroyer} (gone : d.queueGone = true) (executors : Ptr) :
    d.rest executors = none := by
  cases d <;> first | rfl | cases gone

namespace Pool

variable {n : Nat} {F : Type u} {U : Type v} {s t : Pool n F U} {w : Fin n}
variable {past : List (Pool n F U × PoolAction n F U)} {l : List Addr}

structure Torn (s : Pool n F U) (l : List Addr) : Prop where
  chain : Chain Executor.next s.records (s.destroyer.rest s.executors) l
  ahead : ∀ e next, s.destroyer = .cancelling e next ∨ s.destroyer = .joining e next →
    ∃ executor, s.records e = some executor ∧ executor.next = next
  covers : ∀ w, s.isTerminated w = false →
    ∃ e ∈ l, ∃ executor, s.records e = some executor ∧ executor.thread = some w
  asked : ∀ w, s.isTerminated w = true → s.cancelRequested w = true
  calm : s.destroyer = .idle → ∀ w, s.cancelRequested w = false
  ended : ∀ w, w ∈ s.ended ↔ s.isTerminated w = true

theorem start_torn : ∃ l, (start n F U).Torn l := by
  obtain ⟨l, chain, -, all⟩ := futurePoolNew_linked n
  refine ⟨l, chain, by simp [start], ?_, by simp [start, isTerminated],
    by simp [start], by simp [start, isTerminated]⟩
  intro w _
  obtain ⟨member, executor, present, thread⟩ := all w (List.mem_finRange w)
  exact ⟨w.val, member, executor, present, thread⟩

/-- At the end of the list every worker has terminated. -/
theorem Torn.all_terminated (torn : s.Torn l) (atEnd : s.destroyer.rest s.executors = none)
    (w : Fin n) : s.isTerminated w = true := by
  by_contra alive
  obtain ⟨e, member, -⟩ := torn.covers w (by simpa using alive)
  have chain := torn.chain
  rw [atEnd, Chain.none_iff] at chain
  rw [chain] at member
  cases member

/-- Before the teardown nobody has terminated. -/
theorem Torn.alive_of_idle (torn : s.Torn l) (idle : s.destroyer = .idle) (w : Fin n) :
    s.isTerminated w = false := by
  by_contra gone
  have requested := torn.asked w (by simpa using gone)
  rw [torn.calm idle w] at requested
  cases requested

/-! ## Steps -/

/-- The step was neither the teardown's nor a worker's termination. -/
structure Aside (s t : Pool n F U) : Prop where
  records : t.records = s.records
  executors : t.executors = s.executors
  destroyer : t.destroyer = s.destroyer
  terminated : ∀ w, t.isTerminated w = s.isTerminated w
  requested : t.cancelRequested = s.cancelRequested
  ended : t.ended = s.ended

theorem Torn.of_aside (torn : s.Torn l) (aside : Aside s t) : t.Torn l where
  chain := by rw [aside.records, aside.executors, aside.destroyer]; exact torn.chain
  ahead := by rw [aside.records, aside.destroyer]; exact torn.ahead
  covers w alive := by rw [aside.records]; exact torn.covers w (aside.terminated w ▸ alive)
  asked w gone := by rw [aside.requested]; exact torn.asked w (aside.terminated w ▸ gone)
  calm := by rw [aside.destroyer, aside.requested]; exact torn.calm
  ended w := by rw [aside.ended, aside.terminated]; exact torn.ended w

theorem isTerminated_move {place : Worker} (before : ∀ ending, s.worker w ≠ .terminated ending)
    (after : ∀ ending, place ≠ .terminated ending) (worker : t.worker =
      Function.update s.worker w place) (v : Fin n) : t.isTerminated v = s.isTerminated v := by
  by_cases same : v = w
  · subst same
    simp only [isTerminated, worker, Function.update_self]
  · simp [isTerminated, worker, same]

theorem isTerminated_end {ending : Ending} (v : Fin n) :
    (s.endWorker w ending).isTerminated v = if v = w then true else s.isTerminated v := by
  by_cases same : v = w
  · simp [isTerminated, endWorker, moveWorker, same]
  · simp [isTerminated, endWorker, moveWorker, same]

theorem Torn.endWorker (torn : s.Torn l) (requested : s.cancelRequested w = true)
    (ending : Ending) : (s.endWorker w ending).Torn l where
  chain := torn.chain
  ahead := torn.ahead
  covers v alive := by
    rw [isTerminated_end] at alive
    split at alive
    · cases alive
    · exact torn.covers v alive
  asked v gone := by
    rw [isTerminated_end] at gone
    split at gone
    · rename_i same
      exact same ▸ requested
    · exact torn.asked v gone
  calm := torn.calm
  ended v := by
    rw [isTerminated_end]
    by_cases same : v = w
    · simp [Pool.endWorker, moveWorker, same]
    · simpa [Pool.endWorker, moveWorker, same] using torn.ended v

/-- The record that is to be released is the first of those still linked. -/
theorem Torn.joining (torn : s.Torn l) {e : Addr} {next : Ptr}
    (place : s.destroyer = .joining e next) :
    ∃ rest, l = e :: rest ∧ e ∉ rest ∧ Chain Executor.next (s.records.free e) next rest := by
  have chain := torn.chain
  rw [place] at chain
  obtain ⟨x, rest, rfl, present, onward⟩ := Chain.some_iff.1 chain
  obtain ⟨x', present', link⟩ := torn.ahead e next (Or.inr place)
  rw [present] at present'
  cases present'
  have notRest : e ∉ rest := (List.nodup_cons.1 chain.nodup).1
  refine ⟨rest, rfl, notRest, ?_⟩
  rw [← link]
  exact onward.congr_of_eq fun a member => Store.free_ne _ fun same => notRest (same ▸ member)

theorem Torn.destroy (torn : s.Torn l) {a : DestroyAction} (taken : s.Takes (.destroy a) t) :
    ∃ m, t.Torn m := by
  have chain := torn.chain
  cases taken with
  | destroy place =>
      rw [place] at chain
      exact ⟨l, chain, by simp, torn.covers, torn.asked, by simp, torn.ended⟩
  | @next e executor place present =>
      rw [place] at chain
      refine ⟨l, chain, ?_, torn.covers, torn.asked, by simp, torn.ended⟩
      intro e' next' at_
      obtain ⟨rfl, rfl⟩ : e = e' ∧ executor.next = next' := by simpa using at_
      exact ⟨executor, present, rfl⟩
  | @cancel e next executor w place =>
      rw [place] at chain
      refine ⟨l, chain, ?_, torn.covers, ?_, by simp,
        torn.ended⟩
      · intro e' next' at_
        obtain ⟨rfl, rfl⟩ : e = e' ∧ next = next' := by simpa using at_
        exact torn.ahead e next (Or.inl place)
      · intro v terminated
        by_cases same : v = w
        · simp [same]
        · simpa [same] using torn.asked v terminated
  | @join e next executor w place present thread gone =>
      -- the record leaves the list, and its thread has terminated
      obtain ⟨rest, rfl, -, onward⟩ := torn.joining place
      refine ⟨rest, onward, by simp, ?_, torn.asked, by simp, torn.ended⟩
      intro v alive
      obtain ⟨a, member, executor', here, isThread⟩ := torn.covers v alive
      have ne : a ≠ e := by
        rintro rfl
        rw [present, Option.some.injEq] at here
        subst here
        obtain rfl : w = v := by simpa [thread] using isThread
        have dead : s.isTerminated w = false := alive
        rw [gone] at dead
        cases dead
      exact ⟨a, (List.mem_cons.1 member).resolve_left ne, executor',
        (Store.free_ne _ ne).trans here, isThread⟩
  | @queueDestroy outcome place =>
      rw [place] at chain
      refine ⟨l, ?_, ?_, torn.covers, torn.asked, ?_, torn.ended⟩
      · rw [Destroyer.rest_of_gone (Destroyer.ofQueue_gone outcome)]
        exact chain
      · rintro e next (at_ | at_) <;> exact absurd at_ (Destroyer.ofQueue_ne outcome rfl)
      · exact fun idle => absurd idle (Destroyer.ofQueue_ne outcome rfl)

/-- What a step means for the teardown. -/
theorem step_aside {a : PoolAction n F U} (stepped : s.step a = some t) :
    (∃ b, a = .destroy b) ∨ (∃ w b, a = .cancelled w b) ∨ Aside s t := by
  -- a worker that goes on has not terminated, and does not
  have onward : ∀ {w place}, (∀ ending, s.worker w ≠ .terminated ending) →
      (∀ ending, place ≠ .terminated ending) → t.worker = Function.update s.worker w place →
      t.records = s.records ∧ t.executors = s.executors ∧ t.destroyer = s.destroyer ∧
        t.cancelRequested = s.cancelRequested ∧ t.ended = s.ended → Aside s t := by
    rintro w place before after worker ⟨records, executors, destroyer, requested, ended⟩
    exact ⟨records, executors, destroyer, isTerminated_move before after worker, requested, ended⟩
  cases step_takes stepped with
  | destroy | next | cancel | join | queueDestroy => exact Or.inl ⟨_, rfl⟩
  | cancelledWait | cancelledTask | cancelledCallback => exact Or.inr (Or.inl ⟨_, _, rfl⟩)
  | «return» place | call place | ret place | fulfill place | settle place | free place =>
      exact Or.inr (Or.inr (onward (by simp [place]) (by simp) rfl ⟨rfl, rfl, rfl, rfl, rfl⟩))
  | @walk w step c f k future place =>
      by_cases last : step = .finish
      · have before : ∀ ending, s.worker w ≠ .terminated ending := by simp [place]
        have after : ∀ ending, Worker.releasing c ≠ .terminated ending := by simp
        exact Or.inr (Or.inr (onward before after (if_pos last) ⟨rfl, rfl, rfl, rfl, rfl⟩))
      · refine Or.inr (Or.inr ⟨rfl, rfl, rfl, ?_, rfl, rfl⟩)
        intro v
        simp only [isTerminated, if_neg last]
  | _ => exact Or.inr (Or.inr ⟨rfl, rfl, rfl, fun _ => rfl, rfl, rfl⟩)

theorem Torn.cancelled (torn : s.Torn l) {a : CancelAction n}
    (taken : s.Takes (.cancelled w a) t) : t.Torn l := by
  cases taken with
  | @cancelledWait _ _ workQueue requested =>
      have moved : Torn { s with workQueue := workQueue } l :=
        torn.of_aside ⟨rfl, rfl, rfl, fun _ => rfl, rfl, rfl⟩
      exact moved.endWorker requested _
  | cancelledTask requested => exact torn.endWorker requested _
  | cancelledCallback requested => exact torn.endWorker requested _

theorem Torn.step (torn : s.Torn l) {a : PoolAction n F U} (stepped : s.step a = some t) :
    ∃ m, t.Torn m := by
  rcases step_aside stepped with ⟨b, rfl⟩ | ⟨w, b, rfl⟩ | aside
  · exact torn.destroy (step_takes stepped)
  · exact ⟨l, torn.cancelled (step_takes stepped)⟩
  · exact ⟨l, torn.of_aside aside⟩

theorem run_torn (run : (machine n F U).Run past s) : ∃ l, s.Torn l :=
  Machine.Run.invariant (I := fun s : Pool n F U => ∃ l, s.Torn l) start_torn
    (fun _ _ _ ⟨_, torn⟩ stepped => torn.step stepped) run

end Pool

end Cfutures
