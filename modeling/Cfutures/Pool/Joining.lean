/-
# Pool.Joining -- each executor is cancelled once, joined once, and then released

The records in the store are those of the executors still to be joined, each with its
own thread (`Enlisted`).  So the teardown is never at a record it has released
(`at_record`), the calls of `pthread_cancel` and `pthread_join` for a worker can be
told from its record (`count_cancels`, `count_joins`), and at the end of the list no
record is left (`all_released`).
-/
import Cfutures.Pool.Teardown

namespace Cfutures

open Cfutures.Theory

set_option autoImplicit false

universe u v

/-- The executor record that the teardown is at, and reads next. -/
def Destroyer.record : Destroyer → Ptr
  | .walking next => next
  | .cancelling e _ | .joining e _ => some e
  | .idle | .atReleased _ | .done => none

namespace Pool

variable {n : Nat} {F : Type u} {U : Type v} {s t : Pool n F U} {w : Fin n}
variable {past : List (Pool n F U × PoolAction n F U)} {l : List Addr}

structure Enlisted (s : Pool n F U) : Prop where
  own : ∀ e executor, s.records e = some executor → ∃ w : Fin n, w.val = e ∧
    executor.thread = some w
  listed : ∀ l, Chain Executor.next s.records (s.destroyer.rest s.executors) l →
    ∀ e, s.records e ≠ none → e ∈ l

/-- In the beginning every worker has a record. -/
theorem start_record (w : Fin n) : ∃ executor, (start n F U).records w.val = some executor := by
  have lists := futurePoolCreate_lists fun _ : Fin n => true
  obtain ⟨executor, present, -⟩ := lists.thread w (List.mem_finRange w)
  exact ⟨executor, present⟩

theorem start_enlisted : (start n F U).Enlisted := by
  have lists := futurePoolCreate_lists fun _ : Fin n => true
  rw [futurePoolCreate_all] at lists
  refine ⟨?_, ?_⟩
  · intro e executor present
    obtain ⟨w, -, rfl⟩ := lists.only e (by
      rw [show (futurePoolNew n).2 e = _ from present]
      simp)
    obtain ⟨executor', present', thread⟩ := lists.thread w (List.mem_finRange w)
    rw [show (start n F U).records w.val = _ from present'] at present
    cases present
    exact ⟨w, rfl, thread⟩
  · intro l chain e present
    obtain ⟨w, -, rfl⟩ := lists.only e present
    rw [show l = _ from Chain.unique chain lists.chain]
    simp

theorem Enlisted.of_aside (enlisted : s.Enlisted) (records : t.records = s.records)
    (rest : t.destroyer.rest t.executors = s.destroyer.rest s.executors) : t.Enlisted where
  own e executor present := enlisted.own e executor (records ▸ present)
  listed l chain e present := by
    rw [records, rest] at chain
    exact enlisted.listed l chain e (records ▸ present)

theorem Enlisted.join (enlisted : s.Enlisted) (torn : s.Torn l) {e : Addr} {next : Ptr}
    (place : s.destroyer = .joining e next) :
    Enlisted { s with records := s.records.free e, destroyer := .walking next } where
  own e' executor present := by
    have kept : s.records e' = some executor := by
      by_cases same : e' = e
      · simp [same] at present
      · simpa [Store.free_ne _ same] using present
    exact enlisted.own e' executor kept
  listed m chain e' present := by
    obtain ⟨rest, rfl, -, onward⟩ := torn.joining place
    obtain rfl : m = rest := Chain.unique chain onward
    have ne : e' ≠ e := fun same => present (by simp [same])
    have kept : s.records.free e e' ≠ none := present
    rw [Store.free_ne _ ne] at kept
    exact (List.mem_cons.1 (enlisted.listed (e :: m) torn.chain e' kept)).resolve_left ne

theorem Enlisted.step (enlisted : s.Enlisted) (torn : s.Torn l) {a : PoolAction n F U}
    (stepped : s.step a = some t) : t.Enlisted := by
  rcases step_aside stepped with ⟨b, rfl⟩ | ⟨w, b, rfl⟩ | aside
  · cases step_takes stepped with
    | join place => exact enlisted.join torn place
    | destroy place | next place | cancel place =>
        exact enlisted.of_aside rfl (by rw [place]; rfl)
    | @queueDestroy outcome place =>
        refine enlisted.of_aside rfl ?_
        rw [Destroyer.rest_of_gone (Destroyer.ofQueue_gone outcome), place]
        rfl
  · cases step_takes stepped with
    | _ => exact enlisted.of_aside rfl rfl
  · exact enlisted.of_aside aside.records (by rw [aside.destroyer, aside.executors])

theorem run_enlisted (run : (machine n F U).Run past s) : s.Enlisted := by
  induction run with
  | none => exact start_enlisted
  | step before stepped ih =>
      obtain ⟨l, torn⟩ := run_torn before
      exact ih.step torn stepped

/-- The teardown is at a record that has not been released. -/
theorem at_record (run : (machine n F U).Run past s) {e : Addr}
    (at_ : s.destroyer.record = some e) : s.records e ≠ none := by
  obtain ⟨l, torn⟩ := run_torn run
  have rest : s.destroyer.rest s.executors = some e := by
    cases place : s.destroyer <;> simp_all [Destroyer.record, Destroyer.rest]
  have chain := torn.chain
  rw [rest] at chain
  obtain ⟨record, m, -, present, -⟩ := Chain.some_iff.1 chain
  simp [present]

/-- At the end of the list every record has been released. -/
theorem all_released (run : (machine n F U).Run past s)
    (atEnd : s.destroyer.rest s.executors = none) (e : Addr) : s.records e = none := by
  by_contra present
  have listed := (run_enlisted run).listed [] (by rw [atEnd]; rfl) e present
  cases listed

/-! ## The calls on threads -/

/-- The thread that the teardown is about to cancel or to join. -/
def handled (s : Pool n F U) : Option (Fin n) :=
  match s.destroyer with
  | .cancelling e _ | .joining e _ => (s.records e).bind Executor.thread
  | _ => none

/-- The step is `pthread_cancel` of worker `w`. -/
def cancels (w : Fin n) (s : Pool n F U) : PoolAction n F U → Bool
  | .destroy .cancel => decide (s.handled = some w)
  | _ => false

/-- The step is `pthread_join` of worker `w`. -/
def joins (w : Fin n) (s : Pool n F U) : PoolAction n F U → Bool
  | .destroy .join => decide (s.handled = some w)
  | _ => false

/-- The teardown has asked worker `w` to end and has not joined it yet. -/
def asked (s : Pool n F U) (w : Fin n) : Bool :=
  match s.destroyer with
  | .joining e _ => decide (e = w.val)
  | _ => false

/-- `pthread_cancel` is of the worker whose record it is. -/
theorem Enlisted.cancel_cases (enlisted : s.Enlisted)
    (stepped : s.step (.destroy .cancel) = some t) :
    ∃ (v : Fin n) (next : Ptr) (executor : Executor n), s.destroyer = .cancelling v.val next ∧
      s.records v.val = some executor ∧ s.handled = some v ∧
      t = { s with
            cancelRequested := Function.update s.cancelRequested v true
            destroyer := .joining v.val next } := by
  cases step_takes stepped with
  | @cancel e next executor v place present thread =>
      obtain ⟨v', rfl, thread'⟩ := enlisted.own e executor present
      obtain rfl : v = v' := by simpa [thread] using thread'
      exact ⟨v, next, executor, place, present, by simp [handled, place, present, thread], rfl⟩

/-- `pthread_join` is of the worker whose record is released after it. -/
theorem Enlisted.join_cases (enlisted : s.Enlisted)
    (stepped : s.step (.destroy .join) = some t) :
    ∃ (v : Fin n) (next : Ptr) (executor : Executor n), s.destroyer = .joining v.val next ∧
      s.records v.val = some executor ∧ s.handled = some v ∧
      t = { s with records := s.records.free v.val, destroyer := .walking next } := by
  cases step_takes stepped with
  | @join e next executor v place present thread gone =>
      obtain ⟨v', rfl, thread'⟩ := enlisted.own e executor present
      obtain rfl : v = v' := by simpa [thread] using thread'
      exact ⟨v, next, executor, place, present, by simp [handled, place, present, thread], rfl⟩

theorem walked_of_queueDestroy (stepped : s.step (.destroy .queueDestroy) = some t) :
    s.destroyer = .walking none := by
  cases step_takes stepped with
  | queueDestroy place => exact place

/-- What a step that neither cancels nor joins leaves alone. -/
theorem step_records {a : PoolAction n F U} (stepped : s.step a = some t)
    (notCancel : a ≠ .destroy .cancel) (notJoin : a ≠ .destroy .join) (w : Fin n) :
    t.records = s.records ∧ t.asked w = s.asked w := by
  rcases step_aside stepped with ⟨b, rfl⟩ | ⟨v, b, rfl⟩ | aside
  · cases step_takes stepped with
    | cancel => exact absurd rfl notCancel
    | join => exact absurd rfl notJoin
    | destroy place | next place => exact ⟨rfl, by simp [asked, place]⟩
    | @queueDestroy outcome place =>
        exact ⟨rfl, by cases outcome <;> simp [asked, place, Destroyer.ofQueue]⟩
  · cases step_takes stepped with
    | _ => exact ⟨rfl, rfl⟩
  · exact ⟨aside.records, by rw [asked, aside.destroyer]; rfl⟩

/-- A record is released by the join of its own worker. -/
theorem Enlisted.handled_of_released (enlisted : s.Enlisted) {a : PoolAction n F U}
    (stepped : s.step a = some t) (present : s.records w.val ≠ none)
    (released : t.records w.val = none) : a = .destroy .join ∧ s.handled = some w := by
  by_cases isJoin : a = .destroy .join
  · subst isJoin
    obtain ⟨v, next, executor, -, -, handled, rfl⟩ := enlisted.join_cases stepped
    by_cases same : w = v
    · exact ⟨rfl, same ▸ handled⟩
    · have ne : w.val ≠ v.val := fun equal => same (Fin.ext equal)
      exact absurd ((Store.free_ne _ ne).symm.trans released) present
  · have kept : t.records = s.records := by
      by_cases isCancel : a = .destroy .cancel
      · subst isCancel
        obtain ⟨v, next, executor, -, -, -, rfl⟩ := enlisted.cancel_cases stepped
        rfl
      · exact (step_records stepped isCancel isJoin w).1
    exact absurd (kept ▸ released) present

/-- A worker is joined when its record is released, and not before. -/
theorem count_joins (run : (machine n F U).Run past s) (w : Fin n) :
    (past.countP fun e => e.1.joins w e.2) = if (s.records w.val).isSome then 0 else 1 := by
  induction run with
  | none =>
      obtain ⟨executor, present⟩ := start_record (F := F) (U := U) w
      rw [show (machine n F U).start.records w.val = some executor from present]
      rfl
  | @step past s a t before stepped ih =>
      rw [List.countP_append, ih, List.countP_singleton]
      by_cases isJoin : a = .destroy .join
      · subst isJoin
        obtain ⟨v, next, executor, place, present, handled, rfl⟩ :=
          (run_enlisted before).join_cases stepped
        by_cases same : w = v
        · subst same
          simp [joins, handled, present]
        · have ne : w.val ≠ v.val := fun equal => same (Fin.ext equal)
          simp [joins, handled, Ne.symm same, Store.free_ne _ ne]
      · have other : s.joins w a = false := by
          unfold joins
          split <;> first | rfl | exact absurd rfl isJoin
        by_cases isCancel : a = .destroy .cancel
        · subst isCancel
          obtain ⟨v, next, executor, -, -, -, rfl⟩ := (run_enlisted before).cancel_cases stepped
          simp [other]
        · rw [(step_records stepped isCancel isJoin w).1]
          simp [other]

/-- A worker is cancelled when the teardown goes to join it, and not before. -/
theorem count_cancels (run : (machine n F U).Run past s) (w : Fin n) :
    (past.countP fun e => e.1.cancels w e.2) =
      if (s.records w.val).isSome && !s.asked w then 0 else 1 := by
  induction run with
  | none =>
      obtain ⟨executor, present⟩ := start_record (F := F) (U := U) w
      rw [show (machine n F U).start.records w.val = some executor from present]
      rfl
  | @step past s a t before stepped ih =>
      rw [List.countP_append, ih, List.countP_singleton]
      by_cases isCancel : a = .destroy .cancel
      · subst isCancel
        obtain ⟨v, next, executor, place, present, handled, rfl⟩ :=
          (run_enlisted before).cancel_cases stepped
        by_cases same : w = v
        · subst same
          simp [cancels, asked, handled, place, present]
        · have ne : v.val ≠ w.val := fun equal => same (Fin.ext equal.symm)
          simp [cancels, asked, handled, place, ne, Ne.symm same]
      · have other : s.cancels w a = false := by
          unfold cancels
          split <;> first | rfl | exact absurd rfl isCancel
        by_cases isJoin : a = .destroy .join
        · subst isJoin
          obtain ⟨v, next, executor, place, -, -, rfl⟩ := (run_enlisted before).join_cases stepped
          by_cases same : v.val = w.val
          · simp [other, asked, place, same]
          · simp [other, asked, place, same, Store.free_ne _ (Ne.symm same)]
        · obtain ⟨records, asked⟩ := step_records stepped isCancel isJoin w
          rw [records, asked]
          simp [other]

/-- When the teardown is over it has cancelled and joined each worker exactly once. -/
theorem cancelled_and_joined_once (run : (machine n F U).Run past s)
    (atEnd : s.destroyer.rest s.executors = none) (w : Fin n) :
    (past.countP fun e => e.1.cancels w e.2) = 1 ∧
      (past.countP fun e => e.1.joins w e.2) = 1 := by
  rw [count_cancels run, count_joins run, all_released run atEnd]
  simp

end Pool

end Cfutures
