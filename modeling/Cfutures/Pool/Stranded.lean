/-
# Pool.Stranded -- what `future_pool_destroy` leaves unresolved

The workers are cancelled one after another, wherever they are, and then the queue is
destroyed, which comes to an end only if there is nothing in it (`run_found`).  So once
`future_pool_destroy` has returned, a submission made before has a resolved future,
and nobody waits for it in vain, unless

* its own task function was cut off (`CutOff`), or
* the queue had dropped its closure (`Dropped`).

That the queue is empty by then is what the last worker leaves behind: one that has
been asleep until it was cancelled had nothing to do, because no item waits for a
sleeper (`WorkQueue.Covered`) and nobody else was left to be woken.  After that worker
nothing touches the closures of these submissions, as a closure enters the queue once
(`not_onChain_step`), and `queue_destroy` returns (`returns_of_deserted`).
-/
import Cfutures.Pool.Enabled
import Cfutures.Pool.Idle
import Cfutures.Future.Waiting

namespace Cfutures

open Cfutures.Theory

set_option autoImplicit false

universe u v

namespace WorkQueue

set_option linter.unusedSectionVars false

variable {C : Type u} {α : Type v} [Fintype C] [DecidableEq C]
variable {s t : WorkQueue C α} {l : List Addr} {item : Addr} {value : α}

/-- An item with the value is on the chain from `head`. -/
def OnChain (s : WorkQueue C α) (value : α) : Prop :=
  ∃ l, s.queue.Holds l ∧ value ∈ (s.entries l).map Prod.fst

theorem Sound.onChain_iff (sound : s.Sound l) :
    s.OnChain value ↔ value ∈ (s.entries l).map Prod.fst := by
  constructor
  · rintro ⟨m, holds, member⟩
    obtain rfl := holds.unique sound.shaped.holds
    exact member
  · exact fun member => ⟨l, sound.shaped.holds, member⟩

/-- With `head` set there is a value on the chain. -/
theorem Sound.exists_onChain (sound : s.Sound l) (busy : s.queue.head ≠ none) :
    ∃ value ∈ s.enqueued, s.OnChain value := by
  have more : s.entries l ≠ [] := by
    rw [← List.length_pos_iff, sound.entries_length, List.length_pos_iff]
    exact (Chain.ne_nil_iff sound.shaped.holds).2 busy
  obtain ⟨x, listed⟩ := List.exists_mem_of_ne_nil _ more
  have among := sound.order.subset (List.mem_append_right _ listed)
  refine ⟨x.1, ?_, sound.onChain_iff.2 (List.mem_map_of_mem listed)⟩
  rw [← List.zipIdx_map_fst 0 s.enqueued]
  exact List.mem_map_of_mem among

/-- A value enqueued once is on the chain or delivered, not both. -/
theorem Sound.not_delivered (sound : s.Sound l) (once : s.enqueued.Nodup)
    (onChain : s.OnChain value) : value ∉ s.delivered.map Delivery.value := by
  have listed := (sound.order.map Prod.fst).nodup (by rwa [List.zipIdx_map_fst])
  rw [List.map_append, List.map_map] at listed
  exact fun delivered => (List.nodup_append.1 listed).2.2 value delivered value
    (sound.onChain_iff.1 onChain) rfl

/-- Enqueueing another value puts no item with this one on the chain. -/
theorem Sound.onChain_enqueue (sound : s.Sound l) {other : α} {wake : Option C}
    (stepped : s.enqueueStep item other wake = some t) (ne : other ≠ value)
    (onChain : t.OnChain value) : s.OnChain value := by
  obtain ⟨kept, new⟩ := sound.enqueueStep_entry stepped
  have among : ∀ m, (∀ a ∈ m, a ∈ l ∨ a = item) → value ∈ (t.entries m).map Prod.fst →
      value ∈ (s.entries l).map Prod.fst := by
    intro m within member
    obtain ⟨e, listed, rfl⟩ := List.mem_map.1 member
    obtain ⟨a, place, here⟩ := List.mem_filterMap.1 listed
    by_cases same : a = item
    · rw [same, new, Option.some.injEq] at here
      exact absurd (congrArg Prod.fst here) ne
    · rw [kept a same] at here
      have onward := (within a place).resolve_right same
      exact List.mem_map_of_mem (List.mem_filterMap.2 ⟨a, onward, here⟩)
  refine sound.onChain_iff.2 ?_
  obtain ⟨-, -, ⟨-, sound', -⟩ | ⟨-, sound', -, -⟩⟩ := sound.enqueueStep stepped
  · exact among (l ++ [item]) (by simp) (sound'.onChain_iff.1 onChain)
  · exact among l (fun _ => Or.inl) (sound'.onChain_iff.1 onChain)

end WorkQueue

namespace Pool

variable {n : Nat} {F : Type u} {U : Type v} {s t : Pool n F U} {i c : Addr} {w : Fin n}
variable {past more : List (Pool n F U × PoolAction n F U)} {l : List Addr}

/-- The task function of the `i`-th submission was running when its worker was
cancelled. -/
def CutOff (s : Pool n F U) (i : Addr) : Prop := ∃ w, s.worker w = .terminated (.task i)

instance (s : Pool n F U) (i : Addr) : Decidable (s.CutOff i) :=
  inferInstanceAs (Decidable (∃ w, s.worker w = .terminated (.task i)))

/-- The closure was put into the queue, and the queue has neither delivered it nor
has it on the chain. -/
def Dropped (s : Pool n F U) (i : Addr) : Prop :=
  i ∈ s.workQueue.enqueued ∧ i ∉ s.delivered ∧ ¬ s.workQueue.OnChain i

/-- Where the worker was that terminated last. -/
def lastEnding (s : Pool n F U) : Option Ending :=
  s.ended.getLast?.bind fun w =>
    match s.worker w with
    | .terminated ending => some ending
    | _ => none

theorem isTerminated_iff : s.isTerminated w = true ↔ ∃ ending, s.worker w = .terminated ending := by
  unfold isTerminated
  cases s.worker w <;> simp

theorem endWorker_lastEnding (s : Pool n F U) (w : Fin n) (ending : Ending) :
    (s.endWorker w ending).lastEnding = some ending := by
  simp [lastEnding, endWorker, moveWorker]

/-- A queue that was never severed has dropped nothing. -/
theorem not_dropped (run : (machine n F U).Run past s)
    (never : ∀ e ∈ past, e.1.severs e.2 = false) (i : Addr) : ¬ s.Dropped i := by
  rintro ⟨enqueued, notDelivered, notOnChain⟩
  obtain ⟨m, sound, even, -⟩ := WorkQueue.run_deficit (run_queue run)
  obtain ⟨l, holds, items, -⟩ := sound.nothingLost_iff.2 (even.2 ((severs_project past).2 never))
  obtain ⟨k, listed⟩ : ∃ k, (i, k) ∈ s.workQueue.enqueued.zipIdx := by
    rw [← List.zipIdx_map_fst 0 s.workQueue.enqueued] at enqueued
    obtain ⟨⟨j, k⟩, listed, rfl⟩ := List.mem_map.1 enqueued
    exact ⟨k, listed⟩
  have split : (i, k) ∈ (s.workQueue.delivered.map Delivery.entry : Multiset (Addr × Nat)) +
      (s.workQueue.entries l : Multiset (Addr × Nat)) := items ▸ Multiset.mem_coe.2 listed
  rcases Multiset.mem_add.1 split with delivered | onChain
  · obtain ⟨d, member, same⟩ := List.mem_map.1 (Multiset.mem_coe.1 delivered)
    exact notDelivered (List.mem_map.2 ⟨d, member, congrArg Prod.fst same⟩)
  · exact notOnChain ⟨l, holds, List.mem_map_of_mem (Multiset.mem_coe.1 onChain)⟩

/-! ## When everybody has terminated -/

/-- A delivered closure is then settled, or was cut off. -/
theorem Ledger.settled_or_cutOff (ledger : s.Ledger) (ended : ∀ w, s.isTerminated w = true)
    (delivered : c ∈ s.delivered) : (s.futures c).outcomes ≠ [] ∨ s.CutOff c := by
  have settled : ∀ {task value}, s.life c = .settled task value → (s.futures c).outcomes ≠ [] := by
    intro task value life
    rw [show (s.futures c).outcomes = _ from congrArg Life.outcomes life]
    simp [Life.settled]
  obtain ⟨d, member, rfl⟩ := List.mem_map.1 delivered
  obtain ⟨ending, place⟩ := isTerminated_iff.1 (ended d.consumer)
  have phase := ledger.phase d.consumer
  by_cases busy : s.Busy d
  · rcases busy with holds | ⟨⟨item, holding⟩, -⟩
    · obtain ⟨task, -, expects⟩ := ledger.fits _ _ holds
      rw [place] at holds expects
      cases ending with
      | waiting woken => cases holds
      | task c =>
          obtain rfl : c = d.value := by simpa [Worker.closure] using holds
          exact Or.inr ⟨d.consumer, place⟩
      | callback c =>
          obtain ⟨value, life⟩ := expects
          exact Or.inl (settled life)
    · rw [place, holding] at phase
      cases ending <;> simp [Worker.InPhase] at phase
  · obtain ⟨task, value, -, life⟩ := ledger.finished d member busy
    exact Or.inl (settled life)

/-- A closure that was cut off is not settled. -/
theorem Ledger.unsettled_of_cutOff (ledger : s.Ledger) (cutOff : s.CutOff c) :
    (s.futures c).outcomes = [] := by
  obtain ⟨w, place⟩ := cutOff
  obtain ⟨task, -, expects⟩ := ledger.fits w c (by rw [place]; rfl)
  rw [place] at expects
  exact congrArg Life.outcomes expects

/-! ## The last worker -/

/-- Nothing is enqueued after `queue_destroy` has been called. -/
theorem there_of_enqueue {item : Addr} {wake : Option (Fin n)}
    (stepped : s.step (.enqueue i item wake) = some t) : s.destroyer.queueGone = false :=
  (Option.ite_none_right_eq_some.1 (Option.ite_none_left_eq_some.1 stepped).2).1.2

/-- With all workers gone, only submitters touch the queue. -/
theorem step_queue_ended {a : PoolAction n F U} (stepped : s.step a = some t)
    (ended : ∀ w, s.isTerminated w = true) :
    t.workQueue = s.workQueue ∨ ∃ j item wake, s.stage j = .created ∧
      s.destroyer.queueGone = false ∧
      s.workQueue.enqueueStep item j wake = some t.workQueue := by
  have notPopping : ∀ w, s.worker w ≠ .popping := by
    intro w popping
    obtain ⟨ending, place⟩ := isTerminated_iff.1 (ended w)
    rw [popping] at place
    cases place
  cases step_takes stepped with
  | enqueue created taken => exact Or.inr ⟨_, _, _, created, there_of_enqueue stepped, taken⟩
  | pop popping | «return» popping | spurious popping => exact absurd popping (notPopping _)
  | cancelledWait _ popping => exact absurd popping (notPopping _)
  | _ => exact Or.inl rfl

/-- What `queue_destroy` has found at the head of the list. -/
def Found (s : Pool n F U) : Prop :=
  match s.destroyer with
  | .done => s.workQueue.queue.head = none
  | .atReleased item => s.workQueue.queue.head = some item
  | _ => True

theorem found_of_there (there : s.destroyer.queueGone = false) : s.Found := by
  unfold Found
  cases place : s.destroyer <;> first | trivial | simp [place, Destroyer.queueGone] at there

theorem Found.congr (found : s.Found) (destroyer : t.destroyer = s.destroyer)
    (workQueue : t.workQueue = s.workQueue) : t.Found := by
  rw [Found, destroyer, workQueue]
  exact found

/-- The list is what it was found to be: nobody is left who would touch it. -/
theorem run_found (run : (machine n F U).Run past s) : s.Found := by
  induction run with
  | none => trivial
  | @step past s a t before stepped ih =>
      obtain ⟨l, torn⟩ := run_torn before
      have onward : t.destroyer = s.destroyer → t.Found := by
        intro same
        cases gone : s.destroyer.queueGone with
        | false => exact found_of_there (same ▸ gone)
        | true =>
            have ended := torn.all_terminated (Destroyer.rest_of_gone gone _)
            rcases step_queue_ended stepped ended with queue | ⟨_, _, _, -, there, -⟩
            · exact ih.congr same queue
            · rw [gone] at there
              cases there
      rcases step_aside stepped with ⟨b, rfl⟩ | ⟨w, b, rfl⟩ | aside
      · cases step_takes stepped with
        | queueDestroy place ended =>
            rcases Destroyer.ofQueue_cases ended with ⟨empty, done⟩ | ⟨item, atHead, at_⟩
            · simpa only [Found, done] using empty
            · simpa only [Found, at_] using atHead
        | _ => exact found_of_there rfl
      · cases step_takes stepped with
        | _ => exact onward rfl
      · exact onward aside.destroyer

/-- So a `queue_destroy` that has returned has released nothing and left nothing. -/
theorem not_onChain_of_done (run : (machine n F U).Run past s) (done : s.destroyer = .done)
    (i : Addr) : ¬ s.workQueue.OnChain i := by
  have empty := run_found run
  simp only [Found, done] at empty
  rintro ⟨l, holds, member⟩
  rw [Queue.Holds, empty, Chain.none_iff] at holds
  simp [holds, WorkQueue.entries] at member

/-- A worker that was asleep to the end leaves an empty queue, if it was the last. -/
theorem chain_empty_of_last (run : (machine n F U).Run past s)
    (asleep : s.workQueue.phase w = .asleep) (others : ∀ v, v ≠ w → s.isTerminated v = true) :
    s.workQueue.queue.head = none := by
  have ledger := run_ledger run
  obtain ⟨l, sound, covered⟩ := WorkQueue.run_covered (run_queue run)
  have nobody : ∀ v, (s.workQueue.phase v).isSignalled = false := by
    intro v
    by_cases same : v = w
    · rw [same, asleep]
      rfl
    · obtain ⟨ending, place⟩ := isTerminated_iff.1 (others v same)
      have phase := ledger.phase v
      rw [place] at phase
      cases ending <;> simp_all [Worker.InPhase, Phase.isSignalled]
  obtain rfl := covered.chain_empty asleep nobody
  exact sound.shaped.holds

/-- The last worker has gone, from its sleep. -/
def Deserted (s : Pool n F U) : Prop :=
  (∀ w, s.isTerminated w = true) ∧ s.lastEnding = some (.waiting false)

variable {a : PoolAction n F U}

theorem Deserted.of_aside (deserted : t.Deserted) (stepped : s.step a = some t)
    (aside : Aside s t) : s.Deserted := by
  have gone : ∀ w, s.isTerminated w = true := fun w => aside.terminated w ▸ deserted.1 w
  have worker : t.worker = s.worker := by
    rcases step_worker stepped with same | ⟨w, place, next, -⟩
    · exact same
    · obtain ⟨ending, here⟩ := isTerminated_iff.1 (gone w)
      rw [here] at next
      cases next
  have last := deserted.2
  rw [lastEnding, aside.ended, worker] at last
  exact ⟨gone, last⟩

/-- One step keeps submission `i` off the chain of a queue that nobody serves. -/
theorem not_onChain_step (run : (machine n F U).Run past s)
    (returned : (s.stage i).isReturned = true) (before : s.Deserted → ¬ s.workQueue.OnChain i)
    (stepped : s.step a = some t) (deserted : t.Deserted) : ¬ t.workQueue.OnChain i := by
  rcases step_aside stepped with ⟨b, rfl⟩ | ⟨w, b, rfl⟩ | aside
  · have taken := step_takes stepped
    cases taken <;> exact before deserted
  · have taken := step_takes stepped
    cases taken with
    | @cancelledWait _ heir workQueue _ _ taken =>
        -- the worker that ends here is the last one
        have asleep : s.workQueue.phase w = .asleep := by
          simpa [endWorker_lastEnding] using deserted.2
        have others : ∀ v, v ≠ w → s.isTerminated v = true := by
          intro v ne
          have gone := deserted.1 v
          rwa [isTerminated_end, if_neg ne] at gone
        have empty := chain_empty_of_last run asleep others
        obtain ⟨queue, -⟩ := WorkQueue.cancelStep_phase taken
        rintro ⟨l, holds, member⟩
        have none_ : l = [] := by
          have holds : workQueue.queue.Holds l := holds
          rw [queue, Queue.Holds, empty, Chain.none_iff] at holds
          exact holds
        simp [none_, WorkQueue.entries] at member
    | cancelledTask => simp [Deserted, endWorker_lastEnding] at deserted
    | cancelledCallback => simp [Deserted, endWorker_lastEnding] at deserted
  · have earlier := deserted.of_aside stepped aside
    rcases step_queue_ended stepped earlier.1 with same | ⟨j, item, wake, created, -, enqueued⟩
    · rw [same]
      exact before earlier
    · obtain ⟨l, sound⟩ := WorkQueue.run_sound (run_queue run)
      have ne : j ≠ i := by
        rintro rfl
        simp [created, Stage.isReturned] at returned
      exact fun onChain => before earlier (sound.onChain_enqueue enqueued ne onChain)

/-- Before the teardown begins nobody has terminated. -/
theorem alive_of_destroy (run : (machine n F U).Run past s)
    (stepped : s.step (.destroy .destroy) = some t) (w : Fin n) : s.isTerminated w = false := by
  obtain ⟨l, torn⟩ := run_torn run
  cases step_takes stepped with
  | destroy idle => exact torn.alive_of_idle idle w

/-- A future that had been returned at some step of a run is still. -/
theorem returned_since (run : (machine n F U).Run past s) {e : Pool n F U × PoolAction n F U}
    (recorded : e ∈ past) (returned : (e.1.stage i).isReturned = true) :
    (s.stage i).isReturned = true := by
  obtain ⟨earlier, later, u, -, upto, taken, onward⟩ := Machine.Steps.of_mem run recorded
  have kept : (∃ past, (machine n F U).Run past s) ∧ (s.stage i).isReturned = true := by
    refine Machine.Steps.invariant (I := fun s : Pool n F U =>
      (∃ past, (machine n F U).Run past s) ∧ (s.stage i).isReturned = true)
      ?_ (Machine.Steps.append (.step .none taken) onward) ⟨⟨_, upto⟩, returned⟩
    rintro s a t ⟨⟨past, run⟩, returned⟩ stepped
    exact ⟨⟨_, run.step stepped⟩, (run_wired run).returned_stays stepped returned⟩
  exact kept.2

/-- A future returned before `future_pool_destroy` was called has its closure off the
chain once the last worker has gone from its sleep. -/
theorem not_onChain_since (workers : 0 < n) (run : (machine n F U).Run past s)
    {e : Pool n F U × PoolAction n F U} (recorded : e ∈ past) (called : e.2 = .destroy .destroy)
    (returned : (e.1.stage i).isReturned = true) (deserted : s.Deserted) :
    ¬ s.workQueue.OnChain i := by
  obtain ⟨earlier, later, u, -, upto, taken, onward⟩ := Machine.Steps.of_mem run recorded
  have alive : e.1.isTerminated ⟨0, workers⟩ = false := alive_of_destroy upto (called ▸ taken) _
  have kept : (∃ past, (machine n F U).Run past s) ∧
      (s.stage i).isReturned = true ∧ (s.Deserted → ¬ s.workQueue.OnChain i) := by
    refine Machine.Steps.invariant (I := fun s : Pool n F U =>
      (∃ past, (machine n F U).Run past s) ∧
        (s.stage i).isReturned = true ∧ (s.Deserted → ¬ s.workQueue.OnChain i))
      ?_ (Machine.Steps.append (.step .none taken) onward) ⟨⟨_, upto⟩, returned, ?_⟩
    · rintro s a t ⟨⟨past, run⟩, returned, before⟩ stepped
      exact ⟨⟨_, run.step stepped⟩, (run_wired run).returned_stays stepped returned,
        not_onChain_step run returned before stepped⟩
    · intro deserted
      rw [deserted.1] at alive
      cases alive
  exact kept.2.2 deserted

/-- `future_pool_destroy` was called with the future already returned, and has
returned. -/
def TornDown (past : List (Pool n F U × PoolAction n F U)) (s : Pool n F U) (i : Addr) : Prop :=
  (∃ e ∈ past, e.2 = .destroy .destroy ∧ (e.1.stage i).isReturned = true) ∧ s.destroyer = .done

instance (a : PoolAction n F U) : Decidable (a = .destroy .destroy) :=
  match a with
  | .destroy .destroy => isTrue rfl
  | .destroy .next | .destroy .cancel | .destroy .join | .destroy .queueDestroy
  | .execute .. | .enqueue .. | .addCleanup .. | .client .. | .destroyFuture ..
  | .pop .. | .work .. | .cancelled .. => isFalse nofun

instance (past : List (Pool n F U × PoolAction n F U)) (s : Pool n F U) (i : Addr) :
    Decidable (TornDown past s i) :=
  inferInstanceAs (Decidable ((∃ e ∈ past,
    e.2 = .destroy .destroy ∧ (e.1.stage i).isReturned = true) ∧ s.destroyer = .done))

/-- The teardown of worker `w`, whose cancellation is acted on at `a`. -/
def executorDestroy (w : Fin n) (a : CancelAction n) : List (PoolAction n F U) :=
  [.destroy .next, .destroy .cancel, .cancelled w a, .destroy .join]

/-- **`future_pool_destroy` returns if the last worker went from its sleep**, and every
`future_pool_execute` had returned when it was called. -/
theorem returns_of_deserted (workers : 0 < n) (run : (machine n F U).Run past s)
    {e : Pool n F U × PoolAction n F U} (recorded : e ∈ past) (called : e.2 = .destroy .destroy)
    (earlier : ∀ i, s.stage i ≠ .unborn → (e.1.stage i).isReturned = true)
    (atEnd : s.destroyer = .walking none) (last : s.lastEnding = some (.waiting false))
    (alive : s.aborted = false) :
    ∃ t, s.step (.destroy .queueDestroy) = some t ∧ t.destroyer = .done := by
  obtain ⟨l, torn⟩ := run_torn run
  have deserted : s.Deserted := ⟨torn.all_terminated (by rw [atEnd]; rfl), last⟩
  obtain ⟨m, sound⟩ := WorkQueue.run_sound (run_queue run)
  have empty : s.workQueue.queue.head = none := by
    by_contra busy
    obtain ⟨i, enqueued, onChain⟩ := sound.exists_onChain busy
    have queued := ((run_wired run).queued i).1 enqueued
    have returned := earlier i fun unborn => by simp [unborn, Stage.isQueued] at queued
    exact not_onChain_since workers run recorded called returned deserted onChain
  rcases queueDestroy_one s.workQueue.queue with ⟨-, done⟩ | ⟨item, atHead, -⟩
  · exact ⟨_, step_of_act alive (by simp [act, destroyStep, atEnd, done]; rfl), rfl⟩
  · rw [empty] at atHead
    cases atHead

/-! ## When it has returned -/

/-- No `future_wait` or `future_get` on future `i` is held up: none is asleep, and one that
is under way has its next step, of two at most. -/
structure NoneHeldUp (s : Pool n F U) (i : Addr) : Prop where
  asleep : ∀ v get, (s.futures i).waiter v ≠ .asleep get
  checking : ∀ v get, (s.futures i).waiter v = .checking get →
    ∃ t, s.step (.client i (.check v)) = some t ∧
      (t.futures i).waiter v = if get then .reading else .outside
  reading : ∀ v, (s.futures i).waiter v = .reading →
    ∃ t, s.step (.client i (.get v)) = some t ∧ (t.futures i).waiter v = .outside

theorem noneHeldUp_of_resolved (run : (machine n F U).Run past s) (alive : s.aborted = false)
    (returned : s.stage i = .returned)
    (resolved : futureIsResolved (s.futures i).future = true) : s.NoneHeldUp i := by
  have goesOn := run_alive run alive i
  have moves : ∀ {a : ClientAction U} {future}, (s.futures i).step a.onFuture = some future →
      s.step (.client i a) = some { s with
        futures := Function.update s.futures i future, aborted := future.aborted } := by
    intro a future taken
    exact step_of_act alive (by simp [act, clientStep, returned, futureStep, taken])
  refine ⟨?_, ?_, ?_⟩
  · intro v get sleeping
    have unresolved := (SharedFuture.run_waits (run_future run i)).asleep v get sleeping
    rw [futureIsResolved, unresolved] at resolved
    cases resolved
  · intro v get place
    obtain ⟨future, taken, onward⟩ := SharedFuture.exists_pass goesOn resolved place
    exact ⟨_, moves (a := .check v) taken, by simpa using onward⟩
  · intro v place
    obtain ⟨task, value, -, life⟩ :=
      (run_ledger run).settled_of_outcome ((resolved_iff run i).1 resolved)
    have shown : futureGet (s.futures i).future = some value :=
      (shown_of_settled run life).2.2.2
    obtain ⟨future, taken, onward, -⟩ := SharedFuture.exists_got goesOn shown place
    exact ⟨_, moves (a := .get v) taken, by simpa using onward⟩

/-- **What a destroyed pool leaves unresolved.**  After `future_pool_destroy` has
returned, a future whose `future_pool_execute` had returned before the call, and whose
closure the queue did not drop, is resolved unless its own task was cut off; and from
then on no `future_wait` or `future_get` on it is held up. -/
theorem destroyed_resolved_iff (run : (machine n F U).Run past s) (down : TornDown past s i)
    (kept : ¬ s.Dropped i) :
    (futureIsResolved (s.futures i).future = true ↔ ¬ s.CutOff i) ∧
      (futureIsResolved (s.futures i).future = true → ∀ more t, (machine n F U).Steps s more t →
        t.aborted = false → t.stage i = .returned → t.NoneHeldUp i) := by
  obtain ⟨⟨e, recorded, called, returned⟩, done⟩ := down
  obtain ⟨l, torn⟩ := run_torn run
  have ledger := run_ledger run
  have ended : ∀ w, s.isTerminated w = true := torn.all_terminated (by rw [done]; rfl)
  have enqueued : i ∈ s.workQueue.enqueued :=
    ((run_wired run).queued i).2
      (Stage.isQueued_of_isReturned (returned_since run recorded returned))
  have delivered : i ∈ s.delivered := by
    by_contra waiting
    exact kept ⟨enqueued, waiting, not_onChain_of_done run done i⟩
  refine ⟨?_, ?_⟩
  · rw [resolved_iff run]
    constructor
    · exact fun settled cutOff => settled (ledger.unsettled_of_cutOff cutOff)
    · exact fun whole => (ledger.settled_or_cutOff ended delivered).resolve_right whole
  · intro resolved more t steps alive stage
    have later := run.append steps
    refine noneHeldUp_of_resolved later alive stage ?_
    rw [resolved_iff later]
    exact outcomes_stay steps ((resolved_iff run i).1 resolved)

/-- Two workers, one in the walk over the callbacks of task 0 and one in task 1 when the
pool is destroyed: the first is done with its task before it ends, the second is not. -/
theorem destroyed_walking :
    ∃ past s, (machine 2 String Unit).Run past s ∧ TornDown past s 0 ∧ TornDown past s 1 ∧
      futureIsResolved (s.futures 0).future = true ∧
      futureIsResolved (s.futures 1).future = false := by
  obtain ⟨past, s, run, seen⟩ := Machine.exists_run_of_exec (M := machine 2 String Unit)
    (p := fun r => decide (TornDown r.1 r.2 0) && decide (TornDown r.1 r.2 1) &&
      decide (¬ r.2.CutOff 0) && decide (r.2.CutOff 1) && r.1.all fun e => !e.1.severs e.2)
    (executeCall 0 "multiply" (some 5) ++ (executorTurn 0 (some 15) 1).take 8 ++
      executeCall 1 "multiply" (some 10) ++ [.pop 1 .pop, .pop 1 .return, .work 1 .call] ++
      [.destroy .destroy] ++ executorDestroy 1 .task ++
      [.destroy .next, .destroy .cancel] ++ (executorTurn 0 (some 15) 1).drop 8 ++
      [.pop 0 .pop, .cancelled 0 (.wait none), .destroy .join, .destroy .queueDestroy])
    (by decide)
  simp only [Bool.and_eq_true, decide_eq_true_eq, List.all_eq_true, Bool.not_eq_true'] at seen
  obtain ⟨⟨⟨⟨down, down'⟩, whole⟩, cutOff⟩, never⟩ := seen
  have first := destroyed_resolved_iff run down (not_dropped run never 0)
  have second := destroyed_resolved_iff run down' (not_dropped run never 1)
  refine ⟨past, s, run, down, down', first.1.2 whole, ?_⟩
  rw [Bool.eq_false_iff]
  exact fun resolved => second.1.1 resolved cutOff

/-- A worker cancelled inside the only task: the queue is empty and is destroyed, and a
caller sleeps in its `future_get`. -/
theorem destroyed_unresolved :
    ∃ past s, (machine 1 String Unit).Run past s ∧ TornDown past s 0 ∧ s.CutOff 0 ∧
      s.workQueue.queue.head = none ∧ futureIsResolved (s.futures 0).future = false ∧
      (s.futures 0).waiter 0 = .asleep true := by
  obtain ⟨past, s, run, seen⟩ := Machine.exists_run_of_exec (M := machine 1 String Unit)
    (p := fun r => decide (TornDown r.1 r.2 0 ∧ r.2.CutOff 0 ∧
      r.2.workQueue.queue.head = none ∧ futureIsResolved (r.2.futures 0).future = false ∧
      (r.2.futures 0).waiter 0 = .asleep true))
    (executeCall 0 "multiply" (some 5) ++ [.pop 0 .pop, .pop 0 .return, .work 0 .call,
      .client 0 (.wait 0 true), .client 0 (.check 0), .destroy .destroy] ++
      executorDestroy 0 .task ++ [.destroy .queueDestroy])
    (by decide)
  exact ⟨past, s, run, of_decide_eq_true seen⟩

end Pool

end Cfutures
