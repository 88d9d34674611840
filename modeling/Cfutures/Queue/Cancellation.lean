/-
# Queue.Cancellation -- cancelling a consumer inside `queue_pop`

A consumer that acts on a cancellation in the wait takes the mutex again, runs
`thread_relinquish_lock` and is gone.  Whenever that happens, and whatever the other
threads are doing,

* the mutex is owned by no terminated thread and by the one thread inside a section
  (`Queue.Lock`);
* none of the steps of the cancelled call has changed the list (`run_untouched`);
* every thread that wants the mutex can get it: its owner is at most two of its own
  steps from giving it up (`exists_unlocked`, `exists_locked`).
-/
import Cfutures.Queue.Locked

namespace Cfutures

open Cfutures.Theory

set_option autoImplicit false

universe u v w

/-! ## There is always an address for `malloc` -/

namespace WorkQueue

variable {C : Type u} {α : Type w} [Fintype C] [DecidableEq C] {s t : WorkQueue C α}

set_option linter.unusedSectionVars false

theorem hasRoom_step {l : List Addr} (room : s.queue.items.HasRoom) (sound : s.Sound l)
    {a : QueueAction C α} (stepped : s.step a = some t) : t.queue.items.HasRoom := by
  cases a with
  | enqueue item value wake =>
      obtain ⟨new, queue, phase, linked, -, rfl⟩ := enqueueStep_cases stepped
      obtain ⟨items, -⟩ := Queue.enqueue_fields sound.shaped new linked
      refine room.of_one item ?_
      intro a ne absent
      simp [items, Queue.itemsAfterEnqueue, ne, absent]
  | pop c =>
      obtain ⟨-, ⟨-, rfl⟩ | ⟨item, queue, record, unlinked, -, rfl⟩⟩ := popStep_cases stepped
      · exact room
      · obtain ⟨rest, -, -, items, -⟩ := Queue.pop_cases sound.shaped unlinked
        exact room.of_fewer fun a absent => (congrFun items a).trans absent
  | «return» c =>
      obtain ⟨returned, read, rfl⟩ := Option.map_eq_some_iff.1 stepped
      obtain ⟨item, record, -, -, rfl⟩ := returnStep_cases read
      refine room.of_fewer ?_
      intro a absent
      simp [Store.free_apply, absent]
  | spurious c =>
      obtain ⟨-, rfl⟩ := spuriousStep_cases stepped
      exact room
  | cancel c heir =>
      obtain ⟨same, -⟩ := cancelStep_phase stepped
      rw [same]
      exact room

theorem run_hasRoom {past : List (WorkQueue C α × QueueAction C α)}
    (run : (machine C α).Run past s) : s.queue.items.HasRoom := by
  induction run with
  | none => exact Store.HasRoom.empty_hasRoom
  | step before stepped ih =>
      obtain ⟨l, sound⟩ := run_sound before
      exact hasRoom_step ih sound stepped

/-- Some signal can always be sent. -/
theorem exists_signal (phase : C → Phase) : ∃ wake phase', condSignal phase wake = some phase' := by
  by_cases sleeper : ∃ c, phase c = .asleep
  · obtain ⟨c, sleeping⟩ := sleeper
    exact ⟨some c, _, if_pos sleeping⟩
  · exact ⟨none, phase, if_pos (not_exists.1 sleeper)⟩

/-- Inside the section of `queue_enqueue` the enqueue runs. -/
theorem exists_enqueue {past : List (WorkQueue C α × QueueAction C α)}
    (run : (machine C α).Run past s) (value : α) :
    ∃ item wake t, s.enqueueStep item value wake = some t := by
  obtain ⟨item, absent⟩ := (run_hasRoom run).exists_absent
  obtain ⟨l, sound⟩ := run_sound run
  obtain ⟨queue, linked⟩ := Queue.enqueue_defined sound.shaped absent value
  obtain ⟨wake, phase, signalled⟩ := exists_signal s.phase
  refine ⟨item, wake, Option.isSome_iff_exists.1 ?_⟩
  simp [enqueueStep, absent, linked, signalled]

/-- Inside the section of `queue_pop` the loop test runs. -/
theorem exists_pop {past : List (WorkQueue C α × QueueAction C α)}
    (run : (machine C α).Run past s) {c : C} (testing : (s.phase c).testing = true) :
    ∃ t, s.popStep c = some t := by
  obtain ⟨l, sound⟩ := run_sound run
  refine Option.isSome_iff_exists.1 ?_
  cases atHead : s.queue.head with
  | none => simp [popStep, testing, atHead]
  | some item =>
      obtain ⟨rest, rfl⟩ := sound.shaped.holds.of_head atHead
      obtain ⟨q', unlinked, -⟩ := Queue.pop_shaped sound.shaped
      obtain ⟨record, present⟩ := sound.shaped.holds.live (List.mem_cons_self ..)
      simp [popStep, testing, atHead, unlinked, present]

end WorkQueue

namespace LockedQueue

variable {C : Type u} {P : Type v} {α : Type w} [Fintype C] [DecidableEq C] [DecidableEq P]

set_option linter.unusedSectionVars false

variable {s s' : LockedQueue C P α} {t : C ⊕ P} {c : C}
  {past more : List (LockedQueue C P α × LockedAction C P α)}

/-! ## A cancelled call has changed nothing -/

/-- The step leaves the list, and what has been taken from it, as they are. -/
def KeepsList (s : LockedQueue C P α) (a : LockedAction C P α) : Prop :=
  ∀ s', s.step a = some s' →
    s'.workQueue.queue = s.workQueue.queue ∧ s'.workQueue.delivered = s.workQueue.delivered

/-- The consumer has called `queue_pop`, and no step it has taken since changed the list. -/
def Untouched (past : List (LockedQueue C P α × LockedAction C P α)) (c : C) : Prop :=
  ∃ before u after, past = before ++ (u, .callPop c) :: after ∧
    ∀ e ∈ after, thread e.2 = some (.inl c) → e.1.KeepsList e.2

/-- In `queue_pop` with nothing taken, or terminated there. -/
def emptyHanded : QueuePlace α → Bool
  | .popLock | .popLocked | .popWait | .cancelLock | .cancelRelinquish | .cancelled => true
  | _ => false

theorem Untouched.step {a : LockedAction C P α} (untouched : Untouched past c)
    (keeps : thread a = some (.inl c) → s.KeepsList a) : Untouched (past ++ [(s, a)]) c := by
  obtain ⟨before, u, after, rfl, kept⟩ := untouched
  refine ⟨before, u, after ++ [(s, a)], by simp, ?_⟩
  intro e member
  rcases List.mem_append.1 member with earlier | last
  · exact kept e earlier
  · rw [List.mem_singleton.1 last]
    exact keeps

theorem KeepsList.of_step {a : LockedAction C P α} (stepped : s.step a = some s')
    (queue : s'.workQueue.queue = s.workQueue.queue)
    (delivered : s'.workQueue.delivered = s.workQueue.delivered) : s.KeepsList a := by
  intro s'' stepped'
  obtain rfl : s' = s'' := Option.some.inj (stepped.symm.trans stepped')
  exact ⟨queue, delivered⟩

/-- The moves that end empty-handed. -/
theorem next_emptyHanded {p q : QueuePlace α} {move : QueueMove α} (moved : p.next move = some q)
    (still : emptyHanded q = true) :
    move = .callPop ∨ (emptyHanded p = true ∧
      (move = .lock ∨ move = .sleep ∨ move = .relinquish ∨ move = .cancel)) := by
  cases p <;> cases move <;> cases moved <;> simp_all [emptyHanded]

/-- A consumer that comes out of its own step empty-handed has called `queue_pop`, or
was in it and has changed nothing. -/
theorem step_emptyHanded {a : LockedAction C P α} (stepped : s.step a = some s')
    (own : thread a = some (.inl c)) (still : emptyHanded (s'.lock.place (.inl c)) = true) :
    a = .callPop c ∨ (emptyHanded (s.lock.place (.inl c)) = true ∧ s.KeepsList a) := by
  have moves := projects_lock s a s' stepped
  cases a with
  | callPop d =>
      obtain rfl : d = c := by simpa [thread] using own
      exact Or.inl rfl
  | callEnqueue t _ | link t _ _ | exit t =>
      obtain rfl : t = .inl c := Option.some.inj own
      have ends := next_emptyHanded (LockProtocol.step_self moves) still
      simp at ends
  | lock t =>
      obtain rfl : t = .inl c := Option.some.inj own
      have ends := next_emptyHanded (LockProtocol.step_self moves) still
      obtain ⟨lock, -, same⟩ := moveStep_cases (Option.ite_none_left_eq_some.1 stepped).2
      exact Or.inr ⟨by simpa using ends, .of_step stepped (by rw [same]) (by rw [same])⟩
  | relinquish t =>
      obtain rfl : t = .inl c := Option.some.inj own
      have ends := next_emptyHanded (LockProtocol.step_self moves) still
      obtain ⟨lock, -, same⟩ := moveStep_cases stepped
      exact Or.inr ⟨by simpa using ends, .of_step stepped (by rw [same]) (by rw [same])⟩
  | test d =>
      obtain rfl : d = c := by simpa [thread] using own
      obtain ⟨workQueue, lock, tested, moved, rfl⟩ := testStep_cases stepped
      have ends := next_emptyHanded (LockProtocol.step_self moved) still
      obtain ⟨-, ⟨empty, rfl⟩ | ⟨item, queue, record, unlinked, -, rfl⟩⟩ :=
        WorkQueue.popStep_cases tested
      · exact Or.inr ⟨by simpa [popMove, empty] using ends, .of_step stepped rfl rfl⟩
      · have busy : s.workQueue.queue.head ≠ none := fun empty => by
          simp [queuePopSection, empty] at unlinked
        simp [popMove, busy] at ends
  | «return» d =>
      obtain rfl : d = c := by simpa [thread] using own
      have ends := next_emptyHanded (LockProtocol.step_self moves) still
      simp at ends
  | spurious d =>
      obtain rfl : d = c := by simpa [thread] using own
      rw [show s'.lock = s.lock from moves] at still
      obtain ⟨workQueue, woken, rfl⟩ := Option.map_eq_some_iff.1 stepped
      obtain ⟨-, rfl⟩ := WorkQueue.spuriousStep_cases woken
      exact Or.inr ⟨still, .of_step stepped rfl rfl⟩
  | request => cases own
  | cancel d heir =>
      obtain rfl : d = c := by simpa [thread] using own
      have ends := next_emptyHanded (LockProtocol.step_self moves) still
      obtain ⟨-, workQueue, lock, cancelled, -, rfl⟩ := cancelStep_cases stepped
      obtain ⟨queue, delivered, -⟩ := WorkQueue.cancelStep_phase cancelled
      exact Or.inr ⟨by simpa using ends, .of_step stepped queue delivered⟩

theorem run_untouched (run : (machine C P α).Run past s)
    (still : emptyHanded (s.lock.place (.inl c)) = true) : Untouched past c := by
  induction run with
  | none => cases still
  | @step past s a t before stepped ih =>
      by_cases own : thread a = some (.inl c)
      · rcases step_emptyHanded stepped own still with rfl | ⟨was, keeps⟩
        · exact ⟨past, s, [], rfl, by simp⟩
        · exact (ih was).step fun _ => keeps
      · rw [step_place stepped own] at still
        exact (ih still).step fun own' => absurd own' own

/-! ## The mutex can be had -/

/-- Producers are never in `queue_pop`. -/
def popping : QueuePlace α → Bool
  | .popLock | .popLocked | .popWait | .popRelinquish | .popReturn | .cancelLock
  | .cancelRelinquish | .cancelled => true
  | _ => false

theorem next_popping {p q : QueuePlace α} {move : QueueMove α} (moved : p.next move = some q)
    (inPop : popping q = true) : move = .callPop ∨ popping p = true := by
  cases p <;> cases move <;> cases moved <;> simp_all [popping]

theorem run_producer (run : (machine C P α).Run past s) (p : P) :
    popping (s.lock.place (.inr p)) = false := by
  induction run with
  | none => rfl
  | @step past s a t before stepped ih =>
      by_cases own : thread a = some (.inr p)
      · have moves := projects_lock s a t stepped
        by_contra inPop
        rw [Bool.not_eq_false] at inPop
        cases a with
        | callEnqueue u | lock u | link u | relinquish u | exit u =>
            obtain rfl : u = .inr p := Option.some.inj own
            simpa [ih] using next_popping (LockProtocol.step_self moves) inPop
        | _ => cases own
      · rw [step_place stepped own]
        exact ih

theorem steps_place (steps : (machine C P α).Steps s more s')
    (others : ∀ e ∈ more, thread e.2 ≠ some t) : s'.lock.place t = s.lock.place t := by
  induction steps with
  | none => rfl
  | @step more u a v before stepped ih =>
      have last : thread a ≠ some t := others (u, a) (by simp)
      rw [step_place stepped last]
      exact ih fun e member => others e (List.mem_append_left _ member)

/-- At the end of its section a thread gives up the mutex. -/
theorem exists_relinquish {p : QueuePlace α} (moved : (s.lock.place t).next .relinquish = some p) :
    ∃ u, (machine C P α).Steps s [(s, .relinquish t)] u ∧ u.lock.owner () = none := by
  obtain ⟨owner, stepped, -, unlocked⟩ := LockProtocol.step_of_next (N := queueLocking α) moved
    (by simp [QueueMove.op])
  exact ⟨{ s with lock := { owner := owner, place := Function.update s.lock.place t p } },
    .single (by simp [machine, step, moveStep, stepped]), unlocked () rfl⟩

/-- From a section's last step but one. -/
theorem exists_unlocked_after {a : LockedAction C P α} (stepped : s.step a = some s')
    (own : thread a = some t) {p : QueuePlace α}
    (atEnd : (s'.lock.place t).next .relinquish = some p) :
    ∃ more u, (machine C P α).Steps s more u ∧ u.lock.owner () = none ∧
      ∀ e ∈ more, thread e.2 = some t := by
  obtain ⟨u, relinquished, free⟩ := exists_relinquish atEnd
  have first : (machine C P α).Steps s [(s, a)] s' := .single stepped
  refine ⟨_, u, first.append relinquished, free, ?_⟩
  intro e member
  simp only [List.singleton_append, List.mem_cons, List.not_mem_nil, or_false] at member
  rcases member with rfl | rfl
  · exact own
  · rfl

theorem exists_unlocked_link (run : (machine C P α).Run past s) {value : α}
    (place : s.lock.place t = .enqueueLocked value) :
    ∃ more u, (machine C P α).Steps s more u ∧ u.lock.owner () = none ∧
      ∀ e ∈ more, thread e.2 = some t := by
  obtain ⟨item, wake, workQueue, linked⟩ := WorkQueue.exists_enqueue (run_workQueue run) value
  have links : (s.lock.place t).next .link = some .enqueueRelinquish := by
    rw [place]
    rfl
  obtain ⟨owner, moved, -⟩ := LockProtocol.step_of_next (N := queueLocking α) links
    (by simp [QueueMove.op])
  have stepped : s.step (.link t item wake) = some { s with
      workQueue := workQueue
      lock := { owner := owner, place := Function.update s.lock.place t .enqueueRelinquish } } := by
    simp [step, linkStep, moveStep, place, linked, moved]
  exact exists_unlocked_after stepped rfl (p := .outside) (by simp [QueuePlace.next])

theorem exists_unlocked_test (run : (machine C P α).Run past s)
    (place : s.lock.place (.inl c) = .popLocked) :
    ∃ more u, (machine C P α).Steps s more u ∧ u.lock.owner () = none ∧
      ∀ e ∈ more, thread e.2 = some (.inl c) := by
  have testing : (s.workQueue.phase c).testing = true := by
    simpa [place, InPhase] using run_phased run c
  obtain ⟨workQueue, tested⟩ := WorkQueue.exists_pop (run_workQueue run) testing
  by_cases empty : s.workQueue.queue.head = none
  · -- the wait gives up the mutex
    have sleeps : (s.lock.place (.inl c)).next (popMove s.workQueue) = some .popWait := by
      simp [place, popMove, empty, QueuePlace.next]
    obtain ⟨owner, moved, -, unlocked⟩ := LockProtocol.step_of_next (N := queueLocking α) sleeps
      (by simp [popMove, empty, QueueMove.op])
    let u : LockedQueue C P α := { s with
      workQueue := workQueue
      lock := { owner := owner, place := Function.update s.lock.place (.inl c) .popWait } }
    have stepped : (machine C P α).Steps s [(s, .test c)] u :=
      .single (by simp [machine, step, testStep, moveStep, tested, moved, u])
    exact ⟨_, u, stepped, unlocked () (by simp [popMove, empty, QueueMove.op]), by simp [thread]⟩
  · have takes : (s.lock.place (.inl c)).next (popMove s.workQueue) = some .popRelinquish := by
      simp [place, popMove, empty, QueuePlace.next]
    obtain ⟨owner, moved, -⟩ := LockProtocol.step_of_next (N := queueLocking α) takes
      (by simp [popMove, empty, QueueMove.op])
    have stepped : s.step (.test c) = some { s with
        workQueue := workQueue
        lock := { owner := owner
                  place := Function.update s.lock.place (.inl c) .popRelinquish } } := by
      simp [step, testStep, moveStep, tested, moved]
    exact exists_unlocked_after stepped rfl (p := .popReturn) (by simp [QueuePlace.next])

/-- The owner of the mutex gives it up in at most two steps of its own. -/
theorem exists_unlocked (run : (machine C P α).Run past s) :
    ∃ more u, (machine C P α).Steps s more u ∧ u.lock.owner () = none ∧
      ∀ e ∈ more, thread e.2 = s.lock.owner () := by
  cases owner : s.lock.owner () with
  | none => exact ⟨[], s, .none, owner, by simp⟩
  | some t =>
      have within := (owner_iff run t).1 owner
      cases place : s.lock.place t with
      | enqueueLocked value => exact exists_unlocked_link run place
      | popLocked =>
          cases t with
          | inr p =>
              have notIn := run_producer run p
              simp [place, popping] at notIn
          | inl c => exact exists_unlocked_test run place
      | enqueueRelinquish | popRelinquish | cancelRelinquish =>
          obtain ⟨u, relinquished, free⟩ := exists_relinquish (s := s) (t := t) (by rw [place]; rfl)
          exact ⟨_, u, relinquished, free, by simp [thread]⟩
      | _ => simp [place, QueuePlace.inSection] at within

/-- A thread that wants the free mutex takes it, waking up before it if it must. -/
theorem exists_lock_of_free (free : s.lock.owner () = none)
    (wants : (s.lock.place t).wantsLock = true) :
    ∃ more u, (machine C P α).Steps s more u ∧ u.lock.owner () = some t ∧
      ∀ e ∈ more, thread e.2 = some t := by
  -- what an awake thread does
  have awake : ∀ s : LockedQueue C P α, s.lock.owner () = none →
      (s.lock.place t).wantsLock = true → s.asleep t = false →
      ∃ u, (machine C P α).Steps s [(s, .lock t)] u ∧ u.lock.owner () = some t := by
    intro s free wants awake
    obtain ⟨p, moved⟩ := QueuePlace.next_lock wants
    have locked := LockProtocol.lock_of_free (N := queueLocking α) moved rfl free
    exact ⟨_, .single (by simp [machine, step, awake, moveStep, locked]; rfl), by simp⟩
  by_cases sleeping : s.asleep t = true
  · cases t with
    | inr p => cases sleeping
    | inl c =>
        have phase : s.workQueue.phase c = .asleep := by simpa [asleep] using sleeping
        let u : LockedQueue C P α := { s with workQueue := { s.workQueue with
          phase := Function.update s.workQueue.phase c (.woken false) } }
        have woken : (machine C P α).Steps s [(s, .spurious c)] u :=
          .single (by simp [machine, step, WorkQueue.spuriousStep, phase, u])
        obtain ⟨v, locked, owner⟩ := awake u free wants (by simp [asleep, u])
        exact ⟨_, v, woken.append locked, owner, by simp [thread]⟩
  · obtain ⟨u, locked, owner⟩ := awake s free wants (by simpa using sleeping)
    exact ⟨_, u, locked, owner, by simp [thread]⟩

/-- Every thread that wants the mutex can have it, by its own steps and its owner's. -/
theorem exists_locked (run : (machine C P α).Run past s)
    (wants : (s.lock.place t).wantsLock = true) :
    ∃ more u, (machine C P α).Steps s more u ∧ u.lock.owner () = some t ∧
      ∀ e ∈ more, thread e.2 = some t ∨ thread e.2 = s.lock.owner () := by
  obtain ⟨more, u, steps, free, owners⟩ := exists_unlocked run
  have notOwner : s.lock.owner () ≠ some t := by
    intro owner
    have within := (owner_iff run t).1 owner
    cases place : s.lock.place t <;>
      simp [place, QueuePlace.inSection, QueuePlace.wantsLock] at within wants
  have place : u.lock.place t = s.lock.place t :=
    steps_place steps fun e member own => notOwner ((owners e member).symm.trans own)
  obtain ⟨more', v, steps', owner, own⟩ := exists_lock_of_free free (place ▸ wants)
  refine ⟨more ++ more', v, steps.append steps', owner, ?_⟩
  intro e member
  rcases List.mem_append.1 member with earlier | later
  · exact Or.inr (owners e earlier)
  · exact Or.inl (own e later)

/-- **Cancelling a consumer inside `queue_pop` is atomic and leaves the mutex free.**
The mutex is owned by no terminated thread and by at most one live one, the one inside
a section; a consumer terminated in `queue_pop` has changed nothing in the list; and
every thread that wants the mutex can still have it. -/
theorem cancelled_pop_atomic (run : (machine C P α).Run past s) :
    (∀ t, s.lock.owner () = some t →
        (s.lock.place t).terminated = false ∧ (s.lock.place t).inSection = true) ∧
      (∀ t u, (s.lock.place t).inSection = true → (s.lock.place u).inSection = true → t = u) ∧
      (∀ c, s.lock.place (.inl c) = .cancelled → Untouched past c) ∧
      ∀ t, (s.lock.place t).wantsLock = true →
        ∃ more u, (machine C P α).Steps s more u ∧ u.lock.owner () = some t ∧
          ∀ e ∈ more, thread e.2 = some t ∨ thread e.2 = s.lock.owner () := by
  refine ⟨?_, ?_, ?_,
    fun t => exists_locked run⟩
  · intro t owner
    have within := (owner_iff run t).1 owner
    exact ⟨QueuePlace.not_terminated within, within⟩
  · intro t u first second
    have owner := ((owner_iff run t).2 first).symm.trans ((owner_iff run u).2 second)
    exact Option.some.inj owner
  · intro c gone
    exact run_untouched run (by rw [gone]; rfl)

/-- One consumer is cancelled asleep, another is in its section, a producer waits. -/
theorem cancelled_pop_atomic_asleep :
    ∃ past s, (machine (Fin 2) Unit Nat).Run past s ∧ s.lock.place (.inl 0) = .cancelled ∧
      Untouched past (0 : Fin 2) ∧ s.lock.owner () = some (.inl 1) ∧
      ∃ more u, (machine (Fin 2) Unit Nat).Steps s more u ∧
        u.lock.owner () = some (.inr ()) := by
  obtain ⟨past, s, run, seen⟩ := Machine.exists_run_of_exec (M := machine (Fin 2) Unit Nat)
    (p := fun r => decide (r.2.lock.place (.inl 0) = .cancelled) &&
      (r.2.lock.place (.inr ())).wantsLock && decide (r.2.lock.owner () = some (.inl 1)))
    [.callPop 0, .lock (.inl 0), .test 0, .request (.inl 0), .callPop 1, .cancel 0 none,
      .lock (.inl 0), .relinquish (.inl 0), .callEnqueue (.inr ()) 7, .lock (.inl 1)] (by decide)
  simp only [Bool.and_eq_true, decide_eq_true_eq] at seen
  obtain ⟨⟨gone, wants⟩, owner⟩ := seen
  obtain ⟨-, -, untouched, locked⟩ := cancelled_pop_atomic run
  obtain ⟨more, u, steps, owner', -⟩ := locked _ wants
  exact ⟨past, s, run, gone, untouched 0 gone, owner, more, u, steps, owner'⟩

end LockedQueue

end Cfutures
