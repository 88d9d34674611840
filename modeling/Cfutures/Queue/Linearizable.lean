/-
# Queue.Linearizable -- each call of the queue takes effect at one moment inside it

With the mutex taken and given up in steps of its own, a call of `queue_enqueue` or
`queue_pop` is many steps, and the steps of other threads fall between them.  One of
them changes the list: `link` for an enqueue, the loop test that takes an item for a
pop (`QueueMove.acts`).  These steps, in their order, are calls of the lossy queue; a
call that returns has taken exactly one since it began, and a `queue_pop` returns the
value that the lossy queue had to give at that step (`linearizable`).  A call that ends
before another begins has therefore acted before it.
-/
import Cfutures.Queue.Lossy

namespace Cfutures

open Cfutures.Theory

set_option autoImplicit false

universe u v w

section Moves

variable {α : Type w}

/-- The call that a move begins. -/
def QueueMove.call : QueueMove α → Option (LossyCall α)
  | .callEnqueue value => some (.put value)
  | .callPop => some .take
  | _ => none

/-- The move changes the list. -/
def QueueMove.acts : QueueMove α → Bool
  | .link | .take => true
  | _ => false

/-- The call a thread is in, as long as it has not acted. -/
def QueuePlace.pending : QueuePlace α → Option (LossyCall α)
  | .enqueueLock value | .enqueueLocked value => some (.put value)
  | .popLock | .popLocked | .popWait => some .take
  | _ => none

/-- In a call, and past the move that changed the list. -/
def QueuePlace.acted : QueuePlace α → Bool
  | .enqueueRelinquish | .popRelinquish | .popReturn => true
  | _ => false

variable {p q : QueuePlace α} {move : QueueMove α}

/-- A thread that has yet to act has begun its call, by this move or before. -/
theorem QueuePlace.next_pending {call : LossyCall α} (moved : p.next move = some q)
    (pending : q.pending = some call) :
    move.call = some call ∨
      (p.pending = some call ∧ move.call = none ∧ move.acts = false) := by
  cases p <;> cases move <;> cases moved <;>
    simp_all [QueuePlace.pending, QueueMove.call, QueueMove.acts]

/-- Past the move that changed the list nothing is begun or changed. -/
theorem QueuePlace.next_of_acted (moved : p.next move = some q) (acted : p.acted = true) :
    move.call = none ∧ move.acts = false := by
  cases p <;> cases acted <;> cases move <;> first | exact ⟨rfl, rfl⟩ | cases moved

theorem QueuePlace.next_acted (moved : p.next move = some q) (acted : q.acted = true) :
    (move.acts = true ∧ move.call = none) ∨
      (p.acted = true ∧ move.call = none ∧ move.acts = false) := by
  cases p <;> cases move <;> cases moved <;>
    simp_all [QueuePlace.acted, QueueMove.call, QueueMove.acts]

/-- Back outside is only who has acted. -/
theorem QueuePlace.acted_of_outside (moved : p.next move = some .outside) : p.acted = true := by
  cases p <;> cases move <;> first | rfl | cases moved

end Moves

namespace WorkQueue

variable {C : Type u} {α : Type w} [Fintype C] [DecidableEq C] {s t : WorkQueue C α} {c : C}
  {item : Addr}

/-- A consumer holds an item since before the step, and no other value was delivered to
it, or it has popped what the lossy queue gives first. -/
theorem holding_cases {a : QueueAction C α} (stepped : s.step a = some t)
    (holding : t.phase c = .holding item) :
    (s.phase c = .holding item ∧ t.lastTo c = s.lastTo c) ∨
      (a = .pop c ∧ s.queue.head.isSome = true ∧ ∃ d, t.lastTo c = some d ∧
        ∀ m, s.Represents m → ∃ rest, m.pending = d.value :: rest) := by
  cases a with
  | enqueue item value wake =>
      obtain ⟨-, queue, phase, -, signalled, rfl⟩ := enqueueStep_cases stepped
      exact Or.inl ⟨(condSignal_holding signalled).1 holding, rfl⟩
  | pop d =>
      obtain ⟨-, ⟨-, rfl⟩ | ⟨taken, queue, record, unlinked, present, rfl⟩⟩ :=
        popStep_cases stepped
      · exact Or.inl ⟨holding_of_update (by simp) holding, rfl⟩
      · by_cases same : c = d
        · subst same
          have atHead : s.queue.head.isSome = true := by
            rw [Option.isSome_iff_ne_none]
            intro empty
            simp [queuePopSection, empty] at unlinked
          exact Or.inr ⟨rfl, atHead, ⟨c, record.value, s.occurrence taken⟩, by simp [lastTo],
            fun m represents => represents.first unlinked present⟩
        · refine Or.inl ⟨by simpa [same] using holding, ?_⟩
          simp [lastTo, Ne.symm same]
  | «return» d =>
      obtain ⟨result, returned, rfl⟩ := Option.map_eq_some_iff.1 stepped
      obtain ⟨_, _, -, -, rfl⟩ := returnStep_cases returned
      exact Or.inl ⟨holding_of_update (by simp) holding, rfl⟩
  | spurious d =>
      obtain ⟨-, rfl⟩ := spuriousStep_cases stepped
      exact Or.inl ⟨holding_of_update (by simp) holding, rfl⟩
  | cancel d heir =>
      obtain ⟨-, phase, signalled, rfl⟩ | ⟨-, -, rfl⟩ := cancelStep_cases stepped
      · exact Or.inl ⟨holding_of_update (by simp) ((condSignal_holding signalled).1 holding), rfl⟩
      · exact Or.inl ⟨holding_of_update (by simp) holding, rfl⟩

end WorkQueue

namespace LockedQueue

variable {C : Type u} {P : Type v} {α : Type w} [Fintype C] [DecidableEq C] [DecidableEq P]

/-- What a step is to the lossy queue. -/
def lossyCall (s : LockedQueue C P α) (a : LockedAction C P α) : Option (LossyCall α) :=
  (s.queueAction a).bind s.workQueue.lossyCall

/-- Thread `t` neither begins a call nor acts in this step. -/
def Silent (t : C ⊕ P) (e : LockedQueue C P α × LockedAction C P α) : Prop :=
  ∀ move, e.1.lockAction e.2 = some (t, move) → move.call = none ∧ move.acts = false

/-- Thread `t` has begun the call, and has not acted since. -/
def Begun (past : List (LockedQueue C P α × LockedAction C P α)) (t : C ⊕ P)
    (call : LossyCall α) : Prop :=
  ∃ before e after move, past = before ++ e :: after ∧ e.1.lockAction e.2 = some (t, move) ∧
    move.call = some call ∧ ∀ d ∈ after, Silent t d

/-- Thread `t` has begun a call, and has acted once since: by a step that is this call
of the lossy queue. -/
def Acted (past : List (LockedQueue C P α × LockedAction C P α)) (t : C ⊕ P) : Prop :=
  ∃ before e after move call, past = before ++ e :: after ∧
    e.1.lockAction e.2 = some (t, move) ∧ move.acts = true ∧ Begun before t call ∧
    e.1.lossyCall e.2 = some call ∧ ∀ d ∈ after, Silent t d

/-- Consumer `c` has taken `value`, the first of what the lossy queue had at that moment,
and has neither begun a call nor acted since. -/
def Took (past : List (LockedQueue C P α × LockedAction C P α)) (c : C) (value : α) : Prop :=
  ∃ before e after past' m rest, past = before ++ e :: after ∧ e.2 = .test c ∧
    e.1.lossyCall e.2 = some .take ∧
    (LossyQueue.machine α).exec (Machine.observed lossyCall before) = some (past', m) ∧
    m.pending = value :: rest ∧ ∀ d ∈ after, Silent (.inl c) d

set_option linter.unusedSectionVars false

variable {s s' : LockedQueue C P α} {t : C ⊕ P} {a : LockedAction C P α} {move : QueueMove α}
  {call : LossyCall α} {past : List (LockedQueue C P α × LockedAction C P α)}

theorem silent_concat {e : LockedQueue C P α × LockedAction C P α}
    (quiet : ∀ d ∈ past, Silent t d) (silent : Silent t e) : ∀ d ∈ past ++ [e], Silent t d := by
  intro d member
  rcases List.mem_append.1 member with earlier | last
  · exact quiet d earlier
  · rw [List.mem_singleton.1 last]
    exact silent

theorem Begun.silent (begun : Begun past t call) {e : LockedQueue C P α × LockedAction C P α}
    (silent : Silent t e) : Begun (past ++ [e]) t call := by
  obtain ⟨before, d, after, move, rfl, named, calls, quiet⟩ := begun
  exact ⟨before, d, after ++ [e], move, by simp, named, calls, silent_concat quiet silent⟩

theorem Acted.silent (acted : Acted past t) {e : LockedQueue C P α × LockedAction C P α}
    (silent : Silent t e) : Acted (past ++ [e]) t := by
  obtain ⟨before, d, after, move, call, rfl, named, acts, begun, seen, quiet⟩ := acted
  exact ⟨before, d, after ++ [e], move, call, by simp, named, acts, begun, seen,
    silent_concat quiet silent⟩

theorem Took.silent {c : C} {value : α} (took : Took past c value)
    {e : LockedQueue C P α × LockedAction C P α} (silent : Silent (.inl c) e) :
    Took (past ++ [e]) c value := by
  obtain ⟨before, d, after, past', m, rest, rfl, tests, seen, done, first, quiet⟩ := took
  exact ⟨before, d, after ++ [e], past', m, rest, by simp, tests, seen, done, first,
    silent_concat quiet silent⟩

/-- A step in which the thread acts is, to the lossy queue, the call the thread is in. -/
theorem step_acts (stepped : s.step a = some s') (named : s.lockAction a = some (t, move))
    (acts : move.acts = true) :
    ∃ call, (s.lock.place t).pending = some call ∧ s.lossyCall a = some call := by
  cases a with
  | link u item wake =>
      obtain ⟨rfl, rfl⟩ : u = t ∧ QueueMove.link = move := by simpa [lockAction] using named
      obtain ⟨value, workQueue, lock, place, -, -, -⟩ := linkStep_cases stepped
      refine ⟨.put value, by simp [place, QueuePlace.pending], ?_⟩
      simp [lossyCall, queueAction, place, WorkQueue.lossyCall]
  | test c =>
      obtain ⟨rfl, rfl⟩ : .inl c = t ∧ popMove s.workQueue = move := by
        simpa [lockAction] using named
      obtain ⟨workQueue, lock, -, moved, -⟩ := testStep_cases stepped
      obtain ⟨p, -, next, -, -⟩ := LockProtocol.step_cases moved
      have busy : s.workQueue.queue.head.isNone = false := by
        rw [← Bool.not_eq_true]
        intro empty
        simp [popMove, empty, QueueMove.acts] at acts
      have takes : popMove s.workQueue = .take := by simp [popMove, busy]
      rw [takes] at next
      have place : s.lock.place (.inl c) = .popLocked := by
        cases here : s.lock.place (.inl c) <;> rw [here] at next <;> first | rfl | cases next
      refine ⟨.take, by simp [place, QueuePlace.pending], ?_⟩
      have atHead : s.workQueue.queue.head.isSome = true := by simpa using busy
      simp [lossyCall, queueAction, WorkQueue.lossyCall, atHead]
  | _ => cases named <;> cases acts

/-- Where each thread is says what it has done in its call so far. -/
def Traced (past : List (LockedQueue C P α × LockedAction C P α)) (s : LockedQueue C P α) : Prop :=
  ∀ t, (∀ call, (s.lock.place t).pending = some call → Begun past t call) ∧
    ((s.lock.place t).acted = true → Acted past t)

theorem Traced.step (traced : Traced past s) (stepped : s.step a = some s') :
    Traced (past ++ [(s, a)]) s' := by
  intro t
  rcases Machine.moves_cases (projects_lock s a s' stepped) with ⟨unseen, same⟩ | ⟨b, named, moved⟩
  · have silent : Silent t (s, a) := by
      intro move here
      rw [unseen] at here
      cases here
    rw [same]
    exact ⟨fun call pending => ((traced t).1 call pending).silent silent,
      fun acted => ((traced t).2 acted).silent silent⟩
  obtain ⟨u, move⟩ := b
  by_cases own : u = t
  · subst own
    have next := LockProtocol.step_self moved
    have silent : move.call = none → move.acts = false → Silent u (s, a) := by
      intro begins acts move' here
      rw [named] at here
      cases here
      exact ⟨begins, acts⟩
    constructor
    · intro call pending
      rcases QueuePlace.next_pending next pending with calls | ⟨before, begins, acts⟩
      · exact ⟨past, (s, a), [], move, rfl, named, calls, by simp⟩
      · exact ((traced u).1 call before).silent (silent begins acts)
    · intro acted
      rcases QueuePlace.next_acted next acted with ⟨acts, -⟩ | ⟨before, begins, acts⟩
      · obtain ⟨call, pending, seen⟩ := step_acts stepped named acts
        exact ⟨past, (s, a), [], move, call, rfl, named, acts, (traced u).1 call pending, seen,
          by simp⟩
      · exact ((traced u).2 before).silent (silent begins acts)
  · have silent : Silent t (s, a) := by
      intro move' here
      rw [named] at here
      cases here
      exact absurd rfl own
    have place : s'.lock.place t = s.lock.place t := LockProtocol.step_other moved (Ne.symm own)
    rw [place]
    exact ⟨fun call pending => ((traced t).1 call pending).silent silent,
      fun acted => ((traced t).2 acted).silent silent⟩

theorem run_traced (run : (machine C P α).Run past s) : Traced past s := by
  induction run with
  | none =>
      intro t
      constructor
      · intro call pending
        cases pending
      · intro acted
        cases acted
  | step _ stepped ih => exact ih.step stepped

/-- A thread that has acted is silent until it is outside again. -/
theorem silent_of_acted (stepped : s.step a = some s') (acted : (s.lock.place t).acted = true) :
    Silent t (s, a) := by
  intro move named
  rcases Machine.moves_cases (projects_lock s a s' stepped) with ⟨unseen, -⟩ | ⟨b, seen, moved⟩
  · rw [unseen] at named
    cases named
  · rw [seen] at named
    cases named
    exact QueuePlace.next_of_acted (LockProtocol.step_self moved) acted

theorem acted_of_holding (phased : s.Phased) {c : C} {item : Addr}
    (holding : s.workQueue.phase c = .holding item) : (s.lock.place (.inl c)).acted = true := by
  have fits := phased c
  rw [holding] at fits
  cases place : s.lock.place (.inl c) <;> rw [place] at fits <;>
    first | rfl | simp [InPhase, Phase.testing] at fits

theorem refines_lossy (run : (machine C P α).Run past s) :
    ∃ past' m, (LossyQueue.machine α).exec (Machine.observed lossyCall past) = some (past', m) ∧
      s.workQueue.Represents m :=
  (Machine.Simulates.of_projects (π := LockedQueue.workQueue) rfl projects_workQueue
    WorkQueue.simulates_lossy).run run

/-- A consumer that holds an item took it in the call it is in. -/
theorem run_took (run : (machine C P α).Run past s) {c : C} {item : Addr}
    (holding : s.workQueue.phase c = .holding item) :
    ∃ d, s.workQueue.lastTo c = some d ∧ Took past c d.value := by
  induction run with
  | none => cases holding
  | @step past s a s' before stepped ih =>
      have onward : s.workQueue.phase c = .holding item →
          s'.workQueue.lastTo c = s.workQueue.lastTo c →
          ∃ d, s'.workQueue.lastTo c = some d ∧ Took (past ++ [(s, a)]) c d.value := by
        intro held same
        obtain ⟨d, last, took⟩ := ih held
        exact ⟨d, same.trans last,
          took.silent (silent_of_acted stepped (acted_of_holding (run_phased before) held))⟩
      rcases Machine.moves_cases (projects_workQueue s a s' stepped) with
        ⟨-, same⟩ | ⟨b, named, moved⟩
      · exact onward (same ▸ holding) (by rw [same])
      · rcases WorkQueue.holding_cases moved holding with
          ⟨held, same⟩ | ⟨rfl, atHead, d, last, first⟩
        · exact onward held same
        · obtain ⟨past', m, done, represents⟩ := refines_lossy before
          obtain ⟨rest, first⟩ := first m represents
          have tests : a = .test c := by
            cases a with
            | link t item wake =>
                simp only [queueAction] at named
                split at named <;> cases named
            | _ => cases named <;> rfl
          subst tests
          exact ⟨d, last, past, _, [], past', m, rest, rfl, rfl,
            by simp [lossyCall, queueAction, WorkQueue.lossyCall, atHead], done, first, by simp⟩

/-- **The queue is linearizable.**  The steps that change the list are, in their order, a
run of the lossy queue that the linked items stand for; whenever a call returns, its
thread has taken exactly one such step since it began, and that step is this call; and
what a `queue_pop` returns is what the lossy queue had first when it took that step. -/
theorem linearizable (run : (machine C P α).Run past s) :
    (∃ past' m, (LossyQueue.machine α).exec (Machine.observed lossyCall past) = some (past', m) ∧
        s.workQueue.Represents m) ∧
      (∀ a s' t, s.step a = some s' → s.lock.place t ≠ .outside → s'.lock.place t = .outside →
        Acted past t) ∧
      ∀ c value u, s.workQueue.returnStep c = some (value, u) → Took past c value := by
  refine ⟨refines_lossy run, ?within, ?value⟩
  case value =>
    intro c value u returned
    obtain ⟨item, record, holding, -, -⟩ := WorkQueue.returnStep_cases returned
    obtain ⟨d, last, took⟩ := run_took run holding
    obtain ⟨l, sound⟩ := WorkQueue.run_sound (run_workQueue run)
    obtain ⟨-, -, -, -, ⟨d', last', rfl⟩, -⟩ := sound.returnStep returned
    obtain rfl : d = d' := Option.some.inj (last.symm.trans last')
    exact took
  case within =>
    intro a s' t stepped inside outside
    have moves := projects_lock s a s' stepped
    rcases Machine.moves_cases moves with ⟨-, same⟩ | ⟨⟨u, move⟩, -, moved⟩
    · rw [same] at outside
      exact absurd outside inside
    · by_cases own : u = t
      · subst own
        have next := LockProtocol.step_self moved
        rw [outside] at next
        exact (run_traced run u).2 (QueuePlace.acted_of_outside next)
      · have place : s'.lock.place t = s.lock.place t := LockProtocol.step_other moved (Ne.symm own)
        rw [place] at outside
        exact absurd outside inside

/-- A producer and a consumer: the pop is called first, acts after the enqueue and returns
its value. -/
theorem linearizable_pop_waits :
    ∃ past s, (machine Unit Unit Nat).Run past s ∧
      Machine.observed lossyCall past = [.put 7, .take] ∧ Acted past (.inl ()) ∧
      Took past () 7 := by
  obtain ⟨past, s, run, seen⟩ := Machine.exists_run_of_exec (M := machine Unit Unit Nat)
    (p := fun r => decide (Machine.observed lossyCall r.1 = [.put 7, .take]) &&
      decide (r.2.lock.place (.inl ()) ≠ .outside) &&
      decide ((r.2.workQueue.returnStep ()).map Prod.fst = some 7) &&
      (r.2.step (.return ())).any fun t : LockedQueue Unit Unit Nat =>
        decide (t.lock.place (.inl ()) = .outside))
    [.callPop (), .lock (.inl ()), .test (), .callEnqueue (.inr ()) 7, .lock (.inr ()),
      .link (.inr ()) 0 (some ()), .relinquish (.inr ()), .lock (.inl ()), .test (),
      .relinquish (.inl ())] (by decide)
  simp only [Bool.and_eq_true, decide_eq_true_eq, Option.any_eq_true, Option.map_eq_some_iff]
    at seen
  obtain ⟨⟨⟨calls, inside⟩, ⟨value, u⟩, read, rfl⟩, t, returned, outside⟩ := seen
  obtain ⟨-, within, values⟩ := linearizable run
  exact ⟨past, s, run, calls, within _ t _ returned inside outside, values _ _ u read⟩

end LockedQueue

end Cfutures
