/-
# Pool.Rest -- a pool between two actions of the task pool

Every action of `TaskPool` can be played by steps of the pool that leave it at rest:
nobody half-way through a call (`Calm`), and every worker where it can stay as long as it
is left alone (`Parked`).  An idle worker is asleep or woken in `queue_pop`, or in a
callback that a caller has added to the future it settled last, where a cancellation
would find it.

A worker that moves on its own closure leaves the others at rest (`Moved`).
-/
import Cfutures.Pool.Enabled
import Cfutures.Pool.Tasks

namespace Cfutures

open Cfutures.Theory

set_option autoImplicit false

universe u v

namespace Pool

variable {n : Nat} {F : Type u} {U : Type v} {s t : Pool n F U} {i c f : Addr} {v w : Fin n}
variable {m m' : TaskPool n F} {past : List (Pool n F U × PoolAction n F U)} {u : U}

/-- What a step finds is all it needs. -/
theorem step_of_takes (alive : s.aborted = false) (there : s.destroyer.queueGone = false)
    {a : PoolAction n F U} (takes : s.Takes a t) : s.step a = some t := by
  apply step_of_act alive
  cases takes with
  | execute => simp [act, executeStep, there]
  | enqueue created taken => simp [act, enqueueStep, created, there, taken]
  | addCleanup enqueued taken => simp [act, addCleanupStep, enqueued, futureStep, taken]
  | client returned taken => simp [act, clientStep, returned, futureStep, taken]
  | destroyFuture returned waited => simpa [act, destroyFutureStep, returned] using waited
  | pop popping taken => simp [act, popStep, popping, taken]
  | «return» popping taken => simp [act, popStep, popping, taken]
  | spurious popping taken => simp [act, popStep, popping, taken]
  | call place present => simp [act, workStep, callStep, place, present]
  | ret place => simp [act, workStep, retStep, place]
  | fulfill place present linked => simp [act, workStep, fulfillStep, place, present, linked]
  | settle place taken => simp [act, workStep, settleStep, place, futureStep, taken]
  | @walk w step c f k future place taken =>
      cases step <;> simp [act, workStep, walkStep, place, futureStep, taken, moveWorker]
  | free place present => simp [act, workStep, freeStep, place, present]
  | destroy idle => simp [act, destroyStep, idle]
  | next place present => simp [act, destroyStep, place, present]
  | cancel place present thread => simp [act, destroyStep, place, present, thread]
  | join place present thread gone => simp [act, destroyStep, place, present, thread, gone]
  | queueDestroy place ended => simp [act, destroyStep, place, ended]
  | cancelledWait requested popping taken =>
      simp [act, cancelledStep, requested, popping, taken]
  | cancelledTask requested place => simp [act, cancelledStep, requested, place]
  | cancelledCallback requested place inside =>
      simp [act, cancelledStep, requested, place, inside]

/-! ## At rest -/

/-- A caller's callback stands before the clean-up in the future's list. -/
structure Linked (u : U) (i : Addr) (future : SharedFuture (CallbackFn U)) : Prop where
  alive : future.aborted = false
  head : future.future.callbacks = some 1
  first : future.records 1 = some { next := some 0, callbackFn := some (.user u), args := some 0 }
  last : future.records 0 =
    some { next := none, callbackFn := some .cleanupExecute, args := some i }

/-- Nobody is between two actions of the task pool, the workers aside. -/
structure Calm (u : U) (s : Pool n F U) : Prop where
  alive : s.aborted = false
  teardown : s.destroyer = .idle ∨ ∃ p, s.destroyer = .walking p
  listed : ∀ w, s.isTerminated w = true → s.records w.val = none
  young : ∀ i, s.stage i = .unborn ∨ s.stage i = .created → s.futures i = SharedFuture.start
  returned : ∀ i, s.stage i ≠ .unborn → s.stage i ≠ .created →
    s.stage i = .returned ∧ Linked u i (s.futures i)

/-- Where a worker stays between two actions.  Before anything is in the queue it need
not have looked. -/
def Parked (s : Pool n F U) (w : Fin n) : Prop :=
  match s.worker w with
  | .popping =>
      match s.workQueue.phase w with
      | .outside => s.workQueue.enqueued = []
      | .asleep | .woken _ => True
      | _ => False
  | .fetched _ | .running _ | .terminated _ => True
  | .settling _ f k => (s.futures f).call k = .executing 1
  | _ => False

theorem Calm.there (calm : s.Calm u) : s.destroyer.queueGone = false := by
  rcases calm.teardown with place | ⟨p, place⟩ <;> rw [place] <;> rfl

theorem Calm.step (calm : s.Calm u) {a : PoolAction n F U} (takes : s.Takes a t) :
    s.step a = some t := step_of_takes calm.alive calm.there takes

theorem start_calm : (start n F U).Calm u where
  alive := rfl
  teardown := Or.inl rfl
  listed w gone := by simp [start, isTerminated] at gone
  young _ _ := rfl
  returned i born := by simp [start] at born

/-- A worker that is left alone stays where it is, woken perhaps. -/
theorem Parked.congr (parked : s.Parked v) (worker : t.worker v = s.worker v)
    (phase : t.workQueue.phase v = s.workQueue.phase v ∨
      (s.workQueue.phase v = .asleep ∧ t.workQueue.phase v = .woken true))
    (enqueued : s.worker v = .popping → s.workQueue.phase v = .outside →
      t.workQueue.enqueued = s.workQueue.enqueued)
    (call : ∀ c f k, s.worker v = .settling c f k → (t.futures f).call k = (s.futures f).call k) :
    t.Parked v := by
  unfold Parked at parked ⊢
  rw [worker]
  cases place : s.worker v with
  | popping =>
      rw [place] at parked
      rcases phase with same | ⟨-, woken⟩
      · rw [same]
        cases at_ : s.workQueue.phase v with
        | outside =>
            rw [at_] at parked
            exact (enqueued place at_).trans parked
        | _ =>
            rw [at_] at parked
            exact parked
      · rw [woken]
        trivial
  | settling c f k =>
      rw [place] at parked
      exact (call c f k place).trans parked
  | _ =>
      rw [place] at parked
      exact parked

/-- Worker `w` has moved, with future `f` in its hands. -/
structure Moved (w : Fin n) (f : Addr) (s t : Pool n F U) : Prop where
  workQueue : t.workQueue = s.workQueue
  stage : t.stage = s.stage
  destroyer : t.destroyer = s.destroyer
  records : t.records = s.records
  aborted : t.aborted = s.aborted
  worker : ∀ v, v ≠ w → t.worker v = s.worker v
  futures : ∀ j, j ≠ f → t.futures j = s.futures j

theorem Moved.refl (w : Fin n) (f : Addr) (s : Pool n F U) : Moved w f s s :=
  ⟨rfl, rfl, rfl, rfl, rfl, fun _ _ => rfl, fun _ _ => rfl⟩

theorem Moved.trans {r : Pool n F U} (first : Moved w f s t) (second : Moved w f t r) :
    Moved w f s r where
  workQueue := second.workQueue.trans first.workQueue
  stage := second.stage.trans first.stage
  destroyer := second.destroyer.trans first.destroyer
  records := second.records.trans first.records
  aborted := second.aborted.trans first.aborted
  worker v ne := (second.worker v ne).trans (first.worker v ne)
  futures j ne := (second.futures j ne).trans (first.futures j ne)

theorem Moved.calm (moved : Moved w f s t) (calm : s.Calm u) (stays : t.isTerminated w = false)
    (returned : s.stage f = .returned) (linked : Linked u f (t.futures f)) : t.Calm u where
  alive := moved.aborted.trans calm.alive
  teardown := by rw [moved.destroyer]; exact calm.teardown
  listed v gone := by
    have ne : v ≠ w := fun same => by simp [same, stays] at gone
    rw [moved.records]
    exact calm.listed v (by simpa [isTerminated, moved.worker v ne] using gone)
  young j early := by
    rw [moved.stage] at early
    have ne : j ≠ f := by
      rintro rfl
      simp [returned] at early
    rw [moved.futures j ne, calm.young j early]
  returned j born queued := by
    rw [moved.stage] at born queued ⊢
    by_cases same : j = f
    · subst same
      exact ⟨returned, linked⟩
    · rw [moved.futures j same]
      exact calm.returned j born queued

/-- The future in a worker's hands is in nobody else's. -/
theorem Moved.parked (moved : Moved w f s t) (run : (machine n F U).Run past s)
    (holds : (s.worker w).closure = some f) (ne : v ≠ w) (parked : s.Parked v) : t.Parked v := by
  refine parked.congr (moved.worker v ne) (Or.inl (by rw [moved.workQueue]))
    (fun _ _ => by rw [moved.workQueue]) ?_
  intro c g k place
  obtain ⟨l, sound⟩ := WorkQueue.run_sound (run_queue run)
  have apart : g ≠ f := by
    rintro rfl
    exact (run_ledger run).settling_apart (run_wired run) sound place ne holds
  rw [moved.futures g apart]

/-- At rest, and standing for `m`. -/
structure Rest (u : U) (s : Pool n F U) (m : TaskPool n F) : Prop where
  run : ∃ past, (machine n F U).Run past s
  represents : s.Represents m
  calm : s.Calm u
  parked : ∀ w, s.Parked w

theorem start_rest : Rest u (start n F U) (TaskPool.start n F) where
  run := ⟨[], .none⟩
  represents := start_represents
  calm := start_calm
  parked _ := rfl

abbrev Plays (s : Pool n F U) (seen : List (TaskAction n F)) (t : Pool n F U) : Prop :=
  Machine.Plays (machine n F U) taskAction s seen t

/-- What has been played, the task pool has taken. -/
theorem Rest.of_plays (rest : Rest u s m) {seen : List (TaskAction n F)} (plays : Plays s seen t)
    {past' : List (TaskPool n F × TaskAction n F)}
    (taken : (TaskPool.machine n F).execFrom [] m seen = some (past', m'))
    (calm : t.Calm u) (parked : ∀ w, t.Parked w) : Rest u t m' := by
  obtain ⟨past'', q, done, run, represents⟩ :=
    plays.simulated simulates_tasks ⟨rest.run, rest.represents⟩
  rw [taken] at done
  cases done
  exact ⟨run, represents, calm, parked⟩

/-- The future of a settled task has been given to its caller. -/
theorem Calm.settled (calm : s.Calm u) (settled : (s.futures f).outcomes ≠ []) :
    s.stage f = .returned ∧ Linked u f (s.futures f) := by
  refine calm.returned f ?_ ?_
  · intro unborn
    exact settled (by rw [calm.young f (Or.inl unborn)]; rfl)
  · intro created
    exact settled (by rw [calm.young f (Or.inr created)]; rfl)

/-- A worker moves, and nothing else that matters. -/
theorem Calm.move (calm : s.Calm u) {place : Worker} (worker : t.worker =
      Function.update s.worker w place) (before : ∀ ending, s.worker w ≠ .terminated ending)
    (after : ∀ ending, place ≠ .terminated ending) (aborted : t.aborted = s.aborted)
    (destroyer : t.destroyer = s.destroyer) (records : t.records = s.records)
    (stage : t.stage = s.stage) (futures : t.futures = s.futures) : t.Calm u where
  alive := aborted.trans calm.alive
  teardown := by rw [destroyer]; exact calm.teardown
  listed v gone := by
    rw [records]
    exact calm.listed v ((isTerminated_move before after worker v).symm.trans gone)
  young := by rw [stage, futures]; exact calm.young
  returned := by rw [stage, futures]; exact calm.returned

/-- The future of a task that a worker has taken has been given to its caller. -/
theorem Calm.holds (calm : s.Calm u) (run : (machine n F U).Run past s)
    (holds : (s.worker w).closure = some c) : s.stage c = .returned ∧ Linked u c (s.futures c) := by
  obtain ⟨l, sound⟩ := WorkQueue.run_sound (run_queue run)
  have queued := ((run_wired run).queued c).1
    ((delivered_sublist sound).subset ((run_ledger run).mem_delivered holds))
  exact calm.returned c (fun none_ => by simp [none_, Stage.isQueued] at queued)
    (fun none_ => by simp [none_, Stage.isQueued] at queued)

/-- Where a worker is at rest, from its slot. -/
theorem Rest.place_of_slot (rest : Rest u s m) (w : Fin n) :
    (m.slot w = .idle ∧ (s.worker w = .popping ∨ ∃ c f k, s.worker w = .settling c f k)) ∨
      (∃ c, m.slot w = .taken c ∧ s.worker w = .fetched c) ∨
      (∃ c, m.slot w = .running c ∧ s.worker w = .running c) ∨
      (m.slot w = .gone ∧ ∃ ending, s.worker w = .terminated ending) := by
  have parked := rest.parked w
  rw [rest.represents.slot, Pool.slot]
  unfold Parked at parked
  cases place : s.worker w with
  | popping =>
      left
      rw [place] at parked
      cases at_ : s.workQueue.phase w with
      | holding item =>
          rw [at_] at parked
          exact parked.elim
      | _ => exact ⟨rfl, Or.inl rfl⟩
  | fetched c => exact Or.inr (Or.inl ⟨c, rfl, rfl⟩)
  | running c => exact Or.inr (Or.inr (Or.inl ⟨c, rfl, rfl⟩))
  | settling c f k => exact Or.inl ⟨rfl, Or.inr ⟨c, f, k, rfl⟩⟩
  | terminated ending => exact Or.inr (Or.inr (Or.inr ⟨rfl, ending, rfl⟩))
  | ran | fulfilling | releasing =>
      rw [place] at parked
      exact parked.elim

end Pool

end Cfutures
