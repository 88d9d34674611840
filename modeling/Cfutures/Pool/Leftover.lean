/-
# Pool.Leftover -- the closures that a destroyed pool leaves allocated

A closure is allocated by `future_pool_execute` and released by the worker it was
delivered to, at the end of the turn of its loop, and by nobody else: it is on the heap
exactly as long as it has not been delivered, or is with its worker (`stored_iff`).

`future_pool_destroy` releases the executors, and has found no item when it has returned;
a cancelled worker releases nothing.  So what is left then are the closures that the queue
had dropped, those that were never put into it, and one for each worker that was cancelled
in a task function or a callback (`closures_left`).
-/
import Cfutures.Pool.Stranded

namespace Cfutures

open Cfutures.Theory

set_option autoImplicit false

universe u v

namespace Pool

variable {n : Nat} {F : Type u} {U : Type v} {s t : Pool n F U} {c : Addr} {w : Fin n}
variable {past : List (Pool n F U × PoolAction n F U)}

/-- **A closure is on the heap until the worker it was delivered to lets it go.** -/
theorem stored_iff (run : (machine n F U).Run past s) (born : c < s.submissions.length) :
    s.closures c ≠ none ↔
      c ∉ s.delivered ∨ ∃ d ∈ s.workQueue.delivered, d.value = c ∧ s.Busy d := by
  have ledger := run_ledger run
  constructor
  · intro present
    by_cases delivered : c ∈ s.delivered
    · obtain ⟨d, member, rfl⟩ := List.mem_map.1 delivered
      exact Or.inr ⟨d, member, rfl, busy_of_present run member present⟩
    · exact Or.inl delivered
  · intro with_ gone
    obtain ⟨settled, free⟩ := run_stored run born gone
    have touched : s.life c ≠ .untouched := fun fresh => settled (congrArg Life.outcomes fresh)
    rcases with_ with waiting | ⟨d, -, rfl, holds | ⟨⟨item, holding⟩, last⟩⟩
    · exact touched (ledger.waiting c waiting)
    · exact free d.consumer holds
    · exact touched (ledger.held d.consumer item d holding last)

/-- The closures on the heap. -/
def storedClosures (s : Pool n F U) : List Addr :=
  (List.range s.submissions.length).filter fun c => (s.closures c).isSome

/-- The closures that no worker has been given. -/
def undelivered (s : Pool n F U) : List Addr :=
  (List.range s.submissions.length).filter fun c => decide (c ∉ s.delivered)

/-- The closures in the hands of workers, outside `queue_pop`. -/
def held (s : Pool n F U) : List Addr := (List.finRange n).filterMap fun w => (s.worker w).closure

theorem mem_held : c ∈ s.held ↔ ∃ w, (s.worker w).closure = some c := by
  simp [held]

theorem held_nodup (run : (machine n F U).Run past s) : s.held.Nodup := by
  obtain ⟨l, sound⟩ := WorkQueue.run_sound (run_queue run)
  refine (List.nodup_finRange n).filterMap ?_
  intro v w c first second
  exact (run_ledger run).apart (run_wired run) sound first second

/-- A worker that has terminated is not in `queue_pop` with an item. -/
theorem Ledger.busy_of_ended (ledger : s.Ledger) {d : Delivery (Fin n) Addr}
    (ended : s.isTerminated d.consumer = true) (busy : s.Busy d) :
    (s.worker d.consumer).closure = some d.value := by
  refine busy.resolve_right ?_
  rintro ⟨⟨item, holding⟩, -⟩
  have inPhase := ledger.phase d.consumer
  rw [holding] at inPhase
  cases place : s.worker d.consumer with
  | terminated ending => cases ending <;> simp [place, Worker.InPhase] at inPhase
  | _ => simp [isTerminated, place] at ended

theorem mem_storedClosures (run : (machine n F U).Run past s)
    (ended : ∀ w, s.isTerminated w = true) :
    c ∈ s.storedClosures ↔ c ∈ s.undelivered ++ s.held := by
  have ledger := run_ledger run
  obtain ⟨l, sound⟩ := WorkQueue.run_sound (run_queue run)
  have born : c ∈ s.held → c < s.submissions.length := by
    intro holds
    obtain ⟨w, holds⟩ := mem_held.1 holds
    obtain ⟨task, submitted, -⟩ := ledger.fits w c holds
    exact (List.getElem?_eq_some_iff.1 submitted).1
  have with_ : (∃ d ∈ s.workQueue.delivered, d.value = c ∧ s.Busy d) ↔ c ∈ s.held := by
    rw [mem_held]
    constructor
    · rintro ⟨d, -, rfl, busy⟩
      exact ⟨_, ledger.busy_of_ended (ended _) busy⟩
    · rintro ⟨w, holds⟩
      obtain ⟨d, last, rfl⟩ := ledger.owned w c holds
      obtain ⟨member, rfl⟩ := lastTo_mem last
      exact ⟨d, member, rfl, Or.inl holds⟩
  simp only [storedClosures, undelivered, List.mem_append, List.mem_filter, List.mem_range,
    decide_eq_true_eq, Option.isSome_iff_ne_none]
  constructor
  · rintro ⟨early, present⟩
    rcases (stored_iff run early).1 present with waiting | busy
    · exact Or.inl ⟨early, waiting⟩
    · exact Or.inr (with_.1 busy)
  · rintro (⟨early, waiting⟩ | holds)
    · exact ⟨early, (stored_iff run early).2 (Or.inl waiting)⟩
    · exact ⟨born holds, (stored_iff run (born holds)).2 (Or.inr (with_.2 holds))⟩

/-- Each submission has been delivered once, or not at all. -/
theorem undelivered_length (run : (machine n F U).Run past s) :
    s.undelivered.length + s.delivered.length = s.submissions.length := by
  obtain ⟨l, sound⟩ := WorkQueue.run_sound (run_queue run)
  have wired := run_wired run
  have among : ((List.range s.submissions.length).filter fun c => decide (c ∈ s.delivered)).Perm
      s.delivered := by
    rw [List.perm_ext_iff_of_nodup (List.nodup_range.filter _) (delivered_nodup wired sound)]
    intro c
    simp only [List.mem_filter, List.mem_range, decide_eq_true_eq, and_iff_right_iff_imp]
    intro delivered
    obtain ⟨task, submitted⟩ := delivered_born wired sound delivered
    exact (List.getElem?_eq_some_iff.1 submitted).1
  have split := List.length_eq_length_filter_add (l := List.range s.submissions.length)
    fun c => decide (c ∈ s.delivered)
  rw [among.length_eq, List.length_range] at split
  rw [split, Nat.add_comm]
  simp [undelivered]

/-- At the end of a teardown what was never delivered is not in the queue either. -/
theorem lost_of_undelivered (run : (machine n F U).Run past s) (done : s.destroyer = .done)
    (waiting : c ∈ s.undelivered) : s.Dropped c ∨ s.stage c = .created := by
  obtain ⟨early, notDelivered⟩ : c < s.submissions.length ∧ c ∉ s.delivered := by
    simpa [undelivered] using waiting
  have wired := run_wired run
  have born := (wired.born c).2 early
  cases queued : (s.stage c).isQueued with
  | true => exact Or.inl ⟨(wired.queued c).2 queued, notDelivered, not_onChain_of_done run done c⟩
  | false =>
      right
      cases stage : s.stage c with
      | created => rfl
      | unborn => exact absurd stage born
      | _ => simp [stage, Stage.isQueued] at queued

/-- **What `future_pool_destroy` leaves of the closures** when it has returned: those that
were never delivered, which the queue had dropped or never got, and those whose workers
were cancelled in the task function or in a callback of its future, at most one for each
worker. -/
theorem closures_left (run : (machine n F U).Run past s) (done : s.destroyer = .done) :
    s.storedClosures.Perm (s.undelivered ++ s.held) ∧
      (∀ c ∈ s.undelivered, s.Dropped c ∨ s.stage c = .created) ∧
      (∀ c ∈ s.held, ∃ w, s.worker w = .terminated (.task c) ∨
        s.worker w = .terminated (.callback c)) ∧
      s.storedClosures.length + s.delivered.length = s.submissions.length + s.held.length ∧
      s.held.length ≤ n := by
  obtain ⟨l, torn⟩ := run_torn run
  have ended := torn.all_terminated (by rw [done]; rfl)
  have apart : (s.undelivered ++ s.held).Nodup := by
    refine (List.nodup_range.filter _).append (held_nodup run) ?_
    intro c waiting holds
    obtain ⟨w, holds⟩ := mem_held.1 holds
    have delivered := (run_ledger run).mem_delivered holds
    simp [delivered] at waiting
  have same : s.storedClosures.Perm (s.undelivered ++ s.held) :=
    (List.perm_ext_iff_of_nodup (List.nodup_range.filter _) apart).2
      fun c => mem_storedClosures run ended
  refine ⟨same, fun c => lost_of_undelivered run done, ?_, ?_, ?_⟩
  · intro c holds
    obtain ⟨w, holds⟩ := mem_held.1 holds
    refine ⟨w, ?_⟩
    have gone := ended w
    cases place : s.worker w with
    | terminated ending => cases ending <;> simp_all [Worker.closure]
    | _ => simp [isTerminated, place] at gone
  · have total := undelivered_length run
    rw [same.length_eq, List.length_append]
    omega
  · exact (List.length_filterMap_le ..).trans_eq (List.length_finRange ..)

/-- One worker, three tasks, the third enqueued when the first has been popped: one done,
one cancelled, one lost. -/
theorem closures_left_two :
    ∃ past s, (machine 1 String Unit).Run past s ∧ s.destroyer = .done ∧
      s.workQueue.queue.head = none ∧ s.storedClosures = [1, 2] ∧ s.held = [1] ∧ s.Dropped 2 ∧
      s.storedClosures.length + s.delivered.length = s.submissions.length + s.held.length := by
  obtain ⟨past, s, run, seen⟩ := Machine.exists_run_of_exec (M := machine 1 String Unit)
    (p := fun r => decide (r.2.destroyer = .done) && decide (r.2.workQueue.queue.head = none) &&
      decide (r.2.storedClosures = [1, 2]) && decide (r.2.held = [1]) &&
      decide (r.2.undelivered = [2]) && decide (r.2.stage 2 = .returned))
    (executeCall 0 "multiply" (some 5) ++ executeCall 1 "multiply" (some 10) ++ [.pop 0 .pop] ++
      executeCall 2 "multiply" (some 15) ++ (executorTurn 0 (some 15) 1).tail ++
      [.pop 0 .pop, .pop 0 .return, .work 0 .call, .destroy .destroy, .destroy .next,
        .destroy .cancel, .cancelled 0 .task, .destroy .join, .destroy .queueDestroy])
    (by decide)
  simp only [Bool.and_eq_true, decide_eq_true_eq] at seen
  obtain ⟨⟨⟨⟨⟨done, empty⟩, stored⟩, held⟩, waiting⟩, returned⟩ := seen
  obtain ⟨-, lost, -, total, -⟩ := closures_left run done
  have dropped := (lost 2 (by simp [waiting])).resolve_right (by simp [returned])
  exact ⟨past, s, run, done, empty, stored, held, dropped, total⟩

end Pool

end Cfutures
