/-
# Pool.Enabled -- a worker can always go on, unless it is asleep

What a worker reads next is there: the closure it has in its hands (`run_stored`), the
promise and the future in it (`run_promises`, `Wired`), and, in a walk, a step to take
(`settling_pending`).  So in a process that has not aborted a worker that has not
terminated and is not asleep in `queue_pop` has its next step (`can_go_on`).
-/
import Cfutures.Pool.Joining
import Cfutures.Pool.Release
import Cfutures.Pool.Results
import Cfutures.Future.Order
import Cfutures.Queue.Cancellation

namespace Cfutures

open Cfutures.Theory

set_option autoImplicit false

universe u v

namespace SharedFuture

variable {φ : Type u} {s t : SharedFuture φ}

/-- Registering and waiting moves no settling call. -/
theorem step_call {a : FutureAction φ} (stepped : s.step a = some t)
    (notSettle : ∀ o, a ≠ .settle o) (notWalk : ∀ k w, a ≠ .walk k w) :
    t.call = s.call ∧ t.executed = s.executed := by
  obtain ⟨-, ⟨o, settles, -⟩ | ⟨k, w, walks, -⟩ | ⟨link, callbackFn, args, -, added⟩ |
    ⟨-, waits⟩⟩ := step_cases stepped
  · exact absurd settles (notSettle o)
  · exact absurd walks (notWalk k w)
  · obtain ⟨-, rfl⟩ := addCallbackStep_cases added
    exact ⟨rfl, rfl⟩
  · exact ⟨waits.call, waits.executed⟩

/-- Only its last step ends a walk. -/
theorem step_not_returned {k : Nat} {step : WalkStep} (stepped : s.step (.walk k step) = some t)
    (notLast : step ≠ .finish) (pending : s.call k ≠ .returned) : t.call k ≠ .returned := by
  have walked : s.walkStep k step = some t := (Option.ite_none_left_eq_some.1 stepped).2
  rcases walkStep_cases walked with ⟨-, rfl⟩ | ⟨-, -, -, rfl⟩ | ⟨-, -, rfl⟩ |
    ⟨_, _, -, -, -, -, rfl⟩ | ⟨_, _, -, -, -, rfl⟩ | ⟨last, -, -⟩
  · exact pending
  · simp
  · simp
  · simp
  · simp
  · exact absurd last notLast

/-- The end of the list. -/
theorem finish_cases {k : Nat} (stepped : s.step (.walk k .finish) = some t) :
    s.call k = .walking none ∧ t = { s with call := Function.update s.call k .returned } := by
  have walked : s.walkStep k .finish = some t := (Option.ite_none_left_eq_some.1 stepped).2
  simp only [SharedFuture.walkStep, Option.ite_none_right_eq_some, Option.some.injEq] at walked
  exact ⟨walked.1, walked.2.symm⟩

end SharedFuture

namespace Pool

variable {n : Nat} {F : Type u} {U : Type v} {s t : Pool n F U} {i c f : Addr} {w : Fin n}
variable {past : List (Pool n F U × PoolAction n F U)}

/-! ## What a worker reads is there -/

/-- In a process that goes on no future has failed an assertion. -/
theorem run_alive (run : (machine n F U).Run past s) (alive : s.aborted = false) (i : Addr) :
    (s.futures i).aborted = false := by
  have kept : s.aborted = false → ∀ i, (s.futures i).aborted = false := by
    refine Machine.Run.invariant
      (I := fun s : Pool n F U => s.aborted = false → ∀ i, (s.futures i).aborted = false)
      (fun _ _ => rfl) ?_ run
    intro s a t before stepped alive i
    have running : s.aborted = false := by
      have enabled := (Option.ite_none_left_eq_some.1 stepped).1
      simpa using enabled
    have updated : ∀ j (future : SharedFuture (CallbackFn U)), future.aborted = false →
        (Function.update s.futures j future i).aborted = false := by
      intro j future goesOn
      by_cases same : i = j
      · subst same
        simpa using goesOn
      · simpa [same] using before running i
    cases step_takes stepped with
    | addCleanup | client | settle | walk => exact updated _ _ alive
    | _ => exact before running i
  exact kept alive i

theorem run_promises (run : (machine n F U).Run past s) (born : i < s.submissions.length) :
    ∃ promise, s.promises i = some promise := by
  induction run with
  | none => cases born
  | @step past s a t before stepped ih =>
      cases step_takes stepped with
      | @execute fn args =>
          by_cases new : i = s.submissions.length
          · rw [new]
            exact ⟨_, Store.put_same ..⟩
          · have later : i < (s.submissions ++ [(fn, args)]).length := born
            rw [List.length_append, List.length_singleton] at later
            obtain ⟨promise, present⟩ := ih (Nat.lt_of_le_of_ne (Nat.le_of_lt_succ later) new)
            exact ⟨promise, (Store.put_ne _ _ new).trans present⟩
      | _ => exact ih born

/-- Where a worker gets its closure from. -/
theorem step_fetched {a : PoolAction n F U} (stepped : s.step a = some t)
    (popping : s.worker w = .popping) (fetched : t.worker w = .fetched c) :
    s.workQueue.returnStep w = some (c, t.workQueue) := by
  have other : ∀ {v : Fin n} {place : Worker}, place ≠ .fetched c →
      Function.update s.worker v place w ≠ .fetched c := by
    intro v place ne
    by_cases same : w = v
    · subst same
      simpa using ne
    · simp [same, popping]
  cases step_takes stepped with
  | @«return» v d workQueue _ taken =>
      by_cases same : w = v
      · subst same
        obtain rfl : d = c := by simpa [moveWorker] using fetched
        exact taken
      · simp [moveWorker, same, popping] at fetched
  | call | ret | fulfill | settle | free | cancelledWait | cancelledTask | cancelledCallback =>
      exact absurd fetched (other (by simp))
  | @walk v step d g k future place =>
      by_cases last : step = .finish
      · exact absurd (by simpa [last] using fetched) (@other v (.releasing d) (by simp))
      · simp [last, popping] at fetched
  | _ =>
      have same : s.worker w = .fetched c := fetched
      rw [popping] at same
      cases same

/-- Anything else a worker does, it does with the closure it had. -/
theorem next_closure {p q : Worker} (next : p.Next q)
    (holds : q.closure = some c) : p.closure = some c ∨ (p = .popping ∧ q = .fetched c) := by
  cases next <;> simp_all [Worker.closure]

/-- A closure that has been released is settled, and with no worker. -/
theorem run_stored (run : (machine n F U).Run past s) (born : c < s.submissions.length)
    (gone : s.closures c = none) :
    (s.futures c).outcomes ≠ [] ∧ ∀ w, (s.worker w).closure ≠ some c := by
  induction run with
  | none => cases born
  | @step past s a t before stepped ih =>
      obtain ⟨l, sound⟩ := WorkQueue.run_sound (run_queue before)
      have ledger := run_ledger before
      have wired := run_wired before
      -- once settled and let go, a closure is not fetched again
      have stays : (s.futures c).outcomes ≠ [] → (∀ w, (s.worker w).closure ≠ some c) →
          (t.futures c).outcomes ≠ [] ∧ ∀ w, (t.worker w).closure ≠ some c := by
        intro settled free
        refine ⟨outcomes_stay (.single stepped) settled, ?_⟩
        intro w holds
        rcases step_worker stepped with same | ⟨v, place, next, same⟩
        · exact free w (same ▸ holds)
        · by_cases here : w = v
          · subst here
            rw [same, Function.update_self] at holds
            rcases next_closure next holds with kept | ⟨popping, rfl⟩
            · exact free w kept
            · have taken := step_fetched stepped popping (by rw [same, Function.update_self])
              obtain ⟨-, -, -, -, ⟨d, last, value⟩, -⟩ := sound.returnStep taken
              obtain ⟨item, record, holding, -, -⟩ := WorkQueue.returnStep_cases taken
              have fresh := ledger.held w item d holding last
              rw [show d.value = c from value] at fresh
              exact settled (congrArg Life.outcomes fresh)
          · rw [same, Function.update_of_ne here] at holds
            exact free w holds
      rcases step_closures stepped with ⟨closures, submissions, -⟩ |
        ⟨closure, closures, submissions, -⟩ | ⟨w, d, rfl, place, present, closures, submissions⟩
      · obtain ⟨settled, free⟩ := ih (submissions ▸ born) (closures ▸ gone)
        exact stays settled free
      · have ne : c ≠ s.submissions.length := by
          rintro rfl
          simp [closures] at gone
        rw [closures, Store.put_ne _ _ ne] at gone
        rw [submissions] at born
        have older := Nat.lt_of_le_of_ne (Nat.le_of_lt_succ born) ne
        obtain ⟨settled, free⟩ := ih older gone
        exact stays settled free
      · by_cases same : c = d
        · subst same
          have holds : (s.worker w).closure = some c := by rw [place]; rfl
          obtain ⟨task, -, expects⟩ := ledger.fits w c holds
          rw [place] at expects
          obtain ⟨value, life⟩ := expects
          have settled : (s.futures c).outcomes ≠ [] := by
            rw [show (s.futures c).outcomes = _ from congrArg Life.outcomes life]
            simp [Life.settled]
          refine ⟨outcomes_stay (.single stepped) settled, ?_⟩
          intro v holds'
          cases step_takes stepped with
          | free place' =>
              by_cases here : v = w
              · subst here
                simp [moveWorker, Worker.closure] at holds'
              · simp only [moveWorker, Function.update_of_ne here] at holds'
                exact here (ledger.apart wired sound holds' holds)
        · rw [closures, Store.free_ne _ same] at gone
          obtain ⟨settled, free⟩ := ih (submissions ▸ born) gone
          exact stays settled free

/-- The closure in a worker's hands is on record. -/
theorem closure_present (run : (machine n F U).Run past s)
    (holds : (s.worker w).closure = some c) : ∃ closure, s.closures c = some closure := by
  obtain ⟨task, submitted, -⟩ := (run_ledger run).fits w c holds
  have born : c < s.submissions.length := (List.getElem?_eq_some_iff.1 submitted).1
  apply Option.ne_none_iff_exists'.1
  intro gone
  exact (run_stored run born gone).2 w holds

/-- Two workers are in the walks of two futures. -/
theorem Ledger.settling_apart (ledger : s.Ledger) (wired : s.Wired) {l : List Addr}
    (sound : s.workQueue.Sound l) {v : Fin n} {k : Nat} (walking : s.worker v = .settling c f k)
    (ne : v ≠ w) : (s.worker w).closure ≠ some f := by
  intro holds
  have mine : (s.worker v).closure = some c := by rw [walking]; rfl
  obtain ⟨task, -, expects⟩ := ledger.fits v c mine
  rw [walking] at expects
  obtain rfl : f = c := expects.1
  exact ne (ledger.apart wired sound mine holds)

/-- A worker in a walk has not finished it. -/
theorem settling_pending (run : (machine n F U).Run past s) {k : Nat}
    (place : s.worker w = .settling c f k) : (s.futures f).call k ≠ .returned := by
  induction run generalizing w c f k with
  | none => cases place
  | @step past s a t before stepped ih =>
      obtain ⟨l, sound⟩ := WorkQueue.run_sound (run_queue before)
      have ledger := run_ledger before
      have wired := run_wired before
      have apart := fun {v v' : Fin n} (walking : s.worker v = .settling c f k) (ne : v ≠ v') =>
        ledger.settling_apart wired sound walking ne
      -- a step of another worker, or of a caller
      have other : ∀ {j : Addr} {future : SharedFuture (CallbackFn U)},
          s.worker w = .settling c f k → (f = j → future.call = (s.futures j).call) →
          (Function.update s.futures j future f).call k ≠ .returned := by
        intro j future walking same
        by_cases here : f = j
        · subst here
          rw [Function.update_self, same rfl]
          exact ih walking
        · rw [Function.update_of_ne here]
          exact ih walking
      have moved : ∀ {v : Fin n} {place' : Worker}, (∀ c f k, place' ≠ .settling c f k) →
          Function.update s.worker v place' w = .settling c f k → s.worker w = .settling c f k := by
        intro v place' ne here
        by_cases same : w = v
        · subst same
          exact absurd (by simpa using here) (ne c f k)
        · rwa [Function.update_of_ne same] at here
      cases step_takes stepped with
      | addCleanup _ taken =>
          exact other place fun same => by
            subst same
            exact (SharedFuture.step_call taken (by simp) (by simp)).1
      | @client _ a _ _ taken =>
          exact other place fun same => by
            subst same
            exact (SharedFuture.step_call taken (by cases a <;> simp [ClientAction.onFuture])
              (by cases a <;> simp [ClientAction.onFuture])).1
      | «return» | call | ret | fulfill | free | cancelledWait | cancelledTask
      | cancelledCallback => exact ih (moved (by simp) place)
      | @settle v d g value future there taken =>
          obtain rfl := SharedFuture.step_settle taken
          by_cases same : w = v
          · subst same
            obtain ⟨rfl, rfl, rfl⟩ : d = c ∧ g = f ∧ (s.futures g).outcomes.length = k := by
              simpa [moveWorker] using place
            simp [moveWorker, SharedFuture.settleStep]
          · have walking : s.worker w = .settling c f k := by
              simpa [moveWorker, same] using place
            refine other walking fun here => absurd ?_ (apart walking same)
            obtain ⟨task, -, expects⟩ := ledger.fits v d (by rw [there]; rfl)
            rw [there] at expects ⊢
            rw [here, expects.1]
            rfl
      | @walk v step d g j future there taken =>
          have onward : s.worker w = .settling c f k ∧ (w = v → step ≠ .finish) := by
            by_cases last : step = .finish
            · rw [if_pos last] at place
              refine ⟨moved (by simp) place, ?_⟩
              rintro rfl
              simp at place
            · rw [if_neg last] at place
              exact ⟨place, fun _ => last⟩
          obtain ⟨walking, notLast⟩ := onward
          by_cases same : w = v
          · subst same
            obtain ⟨rfl, rfl, rfl⟩ : d = c ∧ g = f ∧ j = k := by
              simpa [walking, eq_comm] using there
            simp only [Function.update_self]
            exact SharedFuture.step_not_returned taken (notLast rfl) (ih walking)
          · refine other walking fun here => absurd ?_ (apart walking same)
            obtain ⟨task, -, expects⟩ := ledger.fits v d (by rw [there]; rfl)
            rw [there] at expects ⊢
            rw [here, expects.1]
            rfl
      | _ => exact ih place

/-- The settling call of a future is with its worker until it has returned, or the worker
was cancelled in one of its callbacks. -/
theorem returned_or_walking (run : (machine n F U).Run past s)
    (settled : (s.futures i).outcomes ≠ []) :
    (s.futures i).call 0 = .returned ∨ (∃ w, s.worker w = .settling i i 0) ∨
      ∃ w, s.worker w = .terminated (.callback i) := by
  induction run with
  | none => exact absurd rfl settled
  | @step past s a t before stepped ih =>
      have ledger := run_ledger before
      -- a step that neither settles nor walks on future `i`
      have aside : ∀ {v : Fin n} {place : Worker} {future : SharedFuture (CallbackFn U)},
          future.outcomes = (s.futures i).outcomes → future.call = (s.futures i).call →
          future.outcomes ≠ [] → s.worker v ≠ .settling i i 0 →
          (∀ ending, s.worker v ≠ .terminated ending) →
          future.call 0 = .returned ∨
            (∃ w, Function.update s.worker v place w = .settling i i 0) ∨
            ∃ w, Function.update s.worker v place w = .terminated (.callback i) := by
        intro v place future outcomes call settled notWalking alive
        rcases ih (outcomes ▸ settled) with done | ⟨w, walking⟩ | ⟨w, gone⟩
        · exact Or.inl (by rw [call, done])
        · have ne : w ≠ v := fun same => notWalking (same ▸ walking)
          exact Or.inr (Or.inl ⟨w, by rw [Function.update_of_ne ne, walking]⟩)
        · have ne : w ≠ v := fun same => alive _ (same ▸ gone)
          exact Or.inr (Or.inr ⟨w, by rw [Function.update_of_ne ne, gone]⟩)
      -- a registration or a waiter's step
      have called : ∀ {j : Addr} {b : FutureAction (CallbackFn U)}
          {future : SharedFuture (CallbackFn U)}, (s.futures j).step b = some future →
          (∀ o, b ≠ .settle o) → (∀ k w, b ≠ .walk k w) →
          (Function.update s.futures j future i).outcomes ≠ [] →
          (Function.update s.futures j future i).call 0 = .returned ∨
            (∃ w, s.worker w = .settling i i 0) ∨
            ∃ w, s.worker w = .terminated (.callback i) := by
        intro j b future taken notSettle notWalk settled
        by_cases here : i = j
        · subst here
          rw [Function.update_self] at settled ⊢
          rw [SharedFuture.step_outcomes taken notSettle] at settled
          rw [(SharedFuture.step_call taken notSettle notWalk).1]
          exact ih settled
        · rw [Function.update_of_ne here] at settled ⊢
          exact ih settled
      cases step_takes stepped with
      | addCleanup _ taken => exact called taken (by simp) (by simp) settled
      | @client _ b _ _ taken =>
          exact called taken (by cases b <;> simp [ClientAction.onFuture])
            (by cases b <;> simp [ClientAction.onFuture]) settled
      | «return» place | call place | ret place | fulfill place | free place
      | cancelledWait _ place | cancelledTask _ place =>
          exact aside rfl rfl settled (by simp [place]) (by simp [place])
      | @settle v d g value future place taken =>
          obtain ⟨task, -, expects⟩ := ledger.fits v d (by rw [place]; rfl)
          rw [place] at expects
          obtain ⟨rfl, answered⟩ := expects
          have none_ : (s.futures g).outcomes = [] := congrArg Life.outcomes answered
          by_cases here : i = g
          · subst here
            exact Or.inr (Or.inl ⟨v, by simp [moveWorker, none_]⟩)
          · have same : Function.update s.futures g future i = s.futures i :=
              Function.update_of_ne here ..
            exact aside (congrArg SharedFuture.outcomes same) (congrArg SharedFuture.call same)
              settled (by simp [place]) (by simp [place])
      | @walk v step d g k future place taken =>
          obtain ⟨task, -, expects⟩ := ledger.fits v d (by rw [place]; rfl)
          rw [place] at expects
          obtain ⟨rfl, rfl, -⟩ := expects
          by_cases here : i = g
          · subst here
            by_cases last : step = .finish
            · subst last
              have ended : future = _ := (SharedFuture.finish_cases taken).2
              exact Or.inl (by simp [ended])
            · exact Or.inr (Or.inl ⟨v, by simp [last, place]⟩)
          · have same : Function.update s.futures g future i = s.futures i :=
              Function.update_of_ne here ..
            have apart : s.worker v ≠ .settling i i 0 := by
              rw [place]
              rintro ⟨⟩
              exact here rfl
            by_cases last : step = .finish
            · simp only [last, if_true]
              exact aside (congrArg SharedFuture.outcomes same) (congrArg SharedFuture.call same)
                settled apart (by simp [place])
            · simp only [last, if_false, same]
              exact ih (by simpa [same] using settled)
      | @cancelledCallback v d g k _ place inside =>
          obtain ⟨task, -, expects⟩ := ledger.fits v d (by rw [place]; rfl)
          rw [place] at expects
          obtain ⟨rfl, rfl, -⟩ := expects
          by_cases here : i = g
          · subst here
            exact Or.inr (Or.inr ⟨v, by simp [endWorker, moveWorker]⟩)
          · have apart : s.worker v ≠ .settling i i 0 := by
              rw [place]
              rintro ⟨⟩
              exact here rfl
            exact aside rfl rfl settled apart (by simp [place])
      | _ => exact ih settled

/-- Only a caller's callback is cut off. -/
theorem user_of_cutOff (run : (machine n F U).Run past s)
    (gone : s.worker w = .terminated (.callback c)) : Nonempty U := by
  induction run with
  | none => cases gone
  | @step past s a t before stepped ih =>
      have moved : ∀ {v : Fin n} {place : Worker}, place ≠ .terminated (.callback c) →
          Function.update s.worker v place w = .terminated (.callback c) → Nonempty U := by
        intro v place ne here
        by_cases same : w = v
        · subst same
          rw [Function.update_self] at here
          exact absurd here ne
        · rw [Function.update_of_ne same] at here
          exact ih here
      cases step_takes stepped with
      | «return» | call | ret | fulfill | settle | free | cancelledWait | cancelledTask =>
          exact moved (by simp) gone
      | @walk v step d g k future place =>
          by_cases last : step = .finish
          · rw [if_pos last] at gone
            exact moved (by simp) gone
          · rw [if_neg last] at gone
            exact ih gone
      | cancelledCallback _ _ inside =>
          unfold inUserCallback at inside
          split at inside
          · split at inside
            · exact ⟨‹U›⟩
            · cases inside
          · cases inside
      | _ => exact ih gone

/-! ## The next step -/

/-- The worker whose own step it is.  Waking up in the wait is not one. -/
def byWorker : PoolAction n F U → Option (Fin n)
  | .pop w .pop | .pop w .return | .work w _ => some w
  | _ => none

/-- Asleep in `queue_pop`. -/
def Asleep (s : Pool n F U) (w : Fin n) : Prop :=
  s.worker w = .popping ∧ s.workQueue.phase w = .asleep

/-- The worker's task function has been called and not returned. -/
def Running (s : Pool n F U) (w : Fin n) : Prop := ∃ c, s.worker w = .running c

theorem step_of_act (alive : s.aborted = false) {a : PoolAction n F U} (acted : s.act a = some t) :
    s.step a = some t := by
  simp [step, alive, acted]

/-- In `queue_pop` a worker has a step unless it is asleep. -/
theorem exists_popStep (run : (machine n F U).Run past s) (popping : s.worker w = .popping)
    (awake : s.workQueue.phase w ≠ .asleep) : ∃ a t, s.popStep w a = some t ∧ a ≠ .spurious := by
  have phase := (run_ledger run).phase w
  rw [popping] at phase
  cases place : s.workQueue.phase w with
  | asleep => exact absurd place awake
  | cancelled => exact absurd place phase
  | outside | woken _ =>
      obtain ⟨workQueue, taken⟩ := WorkQueue.exists_pop (run_queue run) (c := w)
        (by rw [place]; rfl)
      exact ⟨.pop, { s with workQueue := workQueue }, by simp [popStep, popping, taken], by simp⟩
  | holding item =>
      obtain ⟨l, sound⟩ := WorkQueue.run_sound (run_queue run)
      obtain ⟨-, -, record, present, -⟩ := sound.held w item place
      refine ⟨.return, Option.isSome_iff_exists.1 ?_ |>.imp fun t stepped => ⟨stepped, by simp⟩⟩
      simp [popStep, popping, WorkQueue.returnStep, place, queuePopReturn, present]

/-- In a walk a worker has a step. -/
theorem exists_walkStep (run : (machine n F U).Run past s) (alive : s.aborted = false) {k : Nat}
    (place : s.worker w = .settling c f k) : ∃ step t, s.walkStep w step = some t := by
  obtain ⟨task, -, expects⟩ := (run_ledger run).fits w c (by rw [place]; rfl)
  rw [place] at expects
  obtain ⟨rfl, rfl, value, life⟩ := expects
  have settled : (s.futures f).outcomes = _ := congrArg Life.outcomes life
  have future := run_future run f
  obtain ⟨order, walks⟩ := SharedFuture.run_walks future
  have begun := SharedFuture.run_begun future (k := 0) (by rw [settled]; simp [Life.settled])
  obtain ⟨step, next, walked⟩ := walks.exists_walkStep begun (settling_pending run place)
  have goesOn : (s.futures f).step (.walk 0 step) = some next := by
    simp [SharedFuture.step, run_alive run alive f, walked]
  refine ⟨step, Option.isSome_iff_exists.1 ?_⟩
  cases step <;> simp [walkStep, place, futureStep, goesOn]

/-- **A worker that is not asleep has its next step**, unless it has terminated: its
task function may return, or it goes on by itself. -/
theorem can_go_on (run : (machine n F U).Run past s) (alive : s.aborted = false)
    (there : s.isTerminated w = false) (awake : ¬ s.Asleep w) :
    (s.Running w ∧ ∀ value, ∃ t, s.step (.work w (.ret value)) = some t) ∨
      ¬ s.Running w ∧ ∃ a t, byWorker a = some w ∧ s.step a = some t := by
  by_cases running : s.Running w
  · left
    refine ⟨running, ?_⟩
    obtain ⟨c, place⟩ := running
    intro value
    exact ⟨_, step_of_act alive (by simp [act, workStep, retStep, place]; rfl)⟩
  · right
    refine ⟨running, ?_⟩
    have work : ∀ {a : WorkAction} {t}, s.workStep w a = some t →
        ∃ a t, byWorker a = some w ∧ s.step a = some t :=
      fun {a t} worked => ⟨.work w a, t, rfl, step_of_act alive worked⟩
    cases place : s.worker w with
    | popping =>
        obtain ⟨a, t, popped, own⟩ := exists_popStep run place fun asleep => awake ⟨place, asleep⟩
        refine ⟨.pop w a, t, ?_, step_of_act alive popped⟩
        cases a with
        | spurious => exact absurd rfl own
        | _ => rfl
    | fetched c =>
        obtain ⟨closure, present⟩ := closure_present run (w := w) (c := c) (by rw [place]; rfl)
        exact work (a := .call) (by simp [workStep, callStep, place, present]; rfl)
    | running c => exact absurd ⟨c, place⟩ running
    | ran c value =>
        obtain ⟨closure, present⟩ := closure_present run (w := w) (c := c) (by rw [place]; rfl)
        obtain ⟨own, submitted⟩ := (run_wired run).closure c closure present
        obtain ⟨promise, linked⟩ := run_promises run (i := c)
          (List.getElem?_eq_some_iff.1 submitted).1
        rw [← own] at linked
        exact work (a := .fulfill) (by simp [workStep, fulfillStep, place, present, linked]; rfl)
    | fulfilling c f value =>
        have goesOn := run_alive run alive f
        exact work (a := .settle) (by
          simp [workStep, settleStep, place, futureStep, SharedFuture.step, goesOn]; rfl)
    | settling c f k =>
        obtain ⟨step, t, walked⟩ := exists_walkStep run alive place
        exact work (a := .walk step) walked
    | releasing c =>
        obtain ⟨closure, present⟩ := closure_present run (w := w) (c := c) (by rw [place]; rfl)
        exact work (a := .free) (by simp [workStep, freeStep, place, present]; rfl)
    | terminated ending => simp [isTerminated, place] at there

end Pool

end Cfutures
