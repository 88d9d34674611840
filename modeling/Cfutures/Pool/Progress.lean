/-
# Pool.Progress -- left alone by its callers, a pool comes to rest

The steps of the workers, of cancellations being acted on and of a teardown that is
under way (`internal`) spend a potential: each worker has so many steps to come before
it is asleep (`Worker.due`), each closure in the queue as many as a worker will need for
it, the teardown three for each executor (`Destroyer.due`).  So they end
(`internal_steps_end`), from any state and in any order.

Where they end with no teardown begun nothing is left to do (`rest_reached`): every
worker is asleep, and every closure that the queue had not dropped has been run and its
future resolved.  This machine has no mutexes of futures: a teardown under way comes to
its `queue_destroy` here (`AtRest.teardown`), also where a worker cancelled in a
`future_wait` would hold up another (`WaitingPool`).
-/
import Cfutures.Pool.Lifetime
import Cfutures.Pool.Stranded
import Cfutures.Queue.Lossy
import Cfutures.Theory.Progress
import Mathlib.Algebra.Order.BigOperators.Group.List
import Mathlib.Algebra.Order.Group.Nat
import Mathlib.Algebra.Ring.Nat

namespace Cfutures

open Cfutures.Theory

set_option autoImplicit false

universe u v

/-- The steps a worker has to come before it is asleep.  `size` counts the callbacks of
a future, `walked` the steps taken in a walk, `last` is the closure delivered last. -/
def Worker.due (size : Addr → Nat) (phase : Phase) (last : Option Addr)
    (walked : Addr → Nat → Nat) : Worker → Nat
  | .popping =>
      match phase with
      | .outside | .woken _ => 2
      | .asleep => 1
      | .holding _ => last.elim 0 fun c => 2 * size c + 11
      | .cancelled => 0
  | .fetched c => 2 * size c + 10
  | .running c => 2 * size c + 9
  | .ran c _ => 2 * size c + 8
  | .fulfilling _ f _ => 2 * size f + 7
  | .settling _ f k => (2 * size f + 3 - walked f k) + 3
  | .releasing _ => 3
  | .terminated _ => 0

/-- The steps a teardown has to come, with `left` executors still to be joined. -/
def Destroyer.due (left : Nat) : Destroyer → Nat
  | .idle | .atReleased _ | .done => 0
  | .walking _ => 3 * left + 1
  | .cancelling _ _ => 3 * left
  | .joining _ _ => 3 * left - 1

namespace Pool

variable {n : Nat} {F : Type u} {U : Type v} {s t : Pool n F U} {i c f : Addr} {w : Fin n}
variable {past more : List (Pool n F U × PoolAction n F U)} {size : Addr → Nat}

/-- The steps that no caller takes, and that are not wake-ups out of nothing. -/
def internal : PoolAction n F U → Bool
  | .pop _ .pop | .pop _ .return | .work .. | .cancelled .. => true
  | .destroy .destroy => false
  | .destroy _ => true
  | _ => false

/-- The steps taken in walk `k` over the callbacks of future `f`. -/
def walked (s : Pool n F U) (f : Addr) (k : Nat) : Nat :=
  ((s.futures f).call k).stepsTaken ((s.futures f).executedBy k).length

def due (s : Pool n F U) (size : Addr → Nat) (w : Fin n) : Nat :=
  (s.worker w).due size (s.workQueue.phase w) ((s.workQueue.lastTo w).map Delivery.value) s.walked

/-- The steps that the closures in the queue will need, those dropped counted too. -/
def backlog (s : Pool n F U) (size : Addr → Nat) : Nat :=
  (s.workQueue.enqueued.map fun c => 2 * size c + 11).sum -
    (s.delivered.map fun c => 2 * size c + 11).sum

/-- The executors that have not been joined. -/
def executorsLeft (s : Pool n F U) : Nat := tally Option.isSome fun w : Fin n => s.records w.val

def potential (size : Addr → Nat) (s : Pool n F U) : Nat :=
  if s.aborted then 0
  else ∑ w, s.due size w + s.backlog size + s.destroyer.due s.executorsLeft + 1

/-- Reached, with so many callbacks registered on each future. -/
def Sized (size : Addr → Nat) (s : Pool n F U) : Prop :=
  ∃ past, (machine n F U).Run past s ∧ ∀ i, (SharedFuture.registered
    (Machine.projectPast (fun s => s.futures i) (futureAction i) past)).length = size i

theorem run_sized (run : (machine n F U).Run past s) : ∃ size, s.Sized size :=
  ⟨_, past, run, fun _ => rfl⟩

/-- No callback is registered by a step of the pool itself. -/
theorem Sized.step (sized : s.Sized size) {a : PoolAction n F U} (own : internal a = true)
    (stepped : s.step a = some t) : t.Sized size := by
  obtain ⟨past, run, sizes⟩ := sized
  refine ⟨past ++ [(s, a)], run.step stepped, ?_⟩
  intro i
  rw [← sizes i, Machine.projectPast, List.filterMap_append, SharedFuture.registered,
    List.filterMap_append, List.length_append]
  have nothing : ∀ b, s.futureAction i a = some b → SharedFuture.registers b = none := by
    intro b named
    obtain ⟨link, rfl, -⟩ | ⟨c, rfl, -⟩ | ⟨w, c, value, -, -, rfl⟩ | ⟨w, c, k, step, -, -, rfl⟩ :=
      futureAction_cases named
    · cases own
    · cases own
    · rfl
    · rfl
  have none_ : ([(s, a)].filterMap fun e => (e.1.futureAction i e.2).map fun b =>
      (e.1.futures i, b)).filterMap (fun e => SharedFuture.registers e.2) = [] := by
    cases named : s.futureAction i a with
    | none => simp [named]
    | some b => simp [named, nothing b named]
  rw [none_]
  rfl

/-- A walk that is under way has a step to come. -/
theorem Sized.walked_lt (sized : s.Sized size) {k : Nat} (place : s.worker w = .settling c f k) :
    s.walked f k < 2 * size f + 3 := by
  obtain ⟨past, run, sizes⟩ := sized
  have future := run_future run f
  have ran := (SharedFuture.executedBy_earlier future k).length_le
  have among : ((SharedFuture.registered (SharedFuture.beforeLoad
      (Machine.projectPast (fun s => s.futures f) (futureAction f) past) k))).length ≤ size f := by
    rw [← sizes f]
    exact ((List.takeWhile_sublist _).filterMap _).length_le
  rw [List.length_reverse] at ran
  have pending := settling_pending run place
  unfold walked
  cases at_ : (s.futures f).call k <;> simp only [Settler.stepsTaken] <;>
    first | omega | exact absurd at_ pending

/-! ## What a step spends -/

theorem due_congr (worker : t.worker w = s.worker w)
    (phase : t.workQueue.phase w = s.workQueue.phase w)
    (last : t.workQueue.lastTo w = s.workQueue.lastTo w)
    (futures : ∀ c f k, s.worker w = .settling c f k → t.futures f = s.futures f) :
    t.due size w = s.due size w := by
  unfold due
  rw [worker, phase, last]
  cases place : s.worker w with
  | settling c f k => simp only [Worker.due, walked, futures c f k place]
  | _ => rfl

theorem potential_lt_of_sum (alive : s.aborted = false)
    (less : ∑ w, t.due size w + t.backlog size < ∑ w, s.due size w + s.backlog size)
    (teardown : t.destroyer.due t.executorsLeft = s.destroyer.due s.executorsLeft) :
    potential size t < potential size s := by
  simp only [potential, alive, teardown]
  split <;> simp only [Bool.false_eq_true, if_false] <;> omega

/-- One worker has spent something, the others nothing. -/
theorem potential_lt (alive : s.aborted = false) (w : Fin n)
    (others : ∀ v, v ≠ w → t.due size v = s.due size v)
    (less : t.due size w + t.backlog size < s.due size w + s.backlog size)
    (teardown : t.destroyer.due t.executorsLeft = s.destroyer.due s.executorsLeft) :
    potential size t < potential size s := by
  have moved := sum_move w others
  exact potential_lt_of_sum alive (by omega) teardown

/-- What a worker does without the queue. -/
theorem potential_lt_of_work (alive : s.aborted = false) {place : Worker}
    (workQueue : t.workQueue = s.workQueue) (records : t.records = s.records)
    (destroyer : t.destroyer = s.destroyer) (worker : t.worker = Function.update s.worker w place)
    (futures : ∀ v c f k, v ≠ w → s.worker v = .settling c f k → t.futures f = s.futures f)
    (less : t.due size w < s.due size w) : potential size t < potential size s := by
  apply potential_lt alive w
  · intro v ne
    refine due_congr ?_ ?_ ?_ fun c f k => futures v c f k ne
    · rw [worker, Function.update_of_ne ne]
    · rw [workQueue]
    · rw [workQueue]
  · have same : t.backlog size = s.backlog size := by
      rw [backlog, backlog, delivered, workQueue]
      rfl
    omega
  · rw [executorsLeft, records, destroyer]
    rfl

/-- The closures of two workers have different futures. -/
theorem futures_apart (run : (machine n F U).Run past s) {future : SharedFuture (CallbackFn U)}
    (holds : (s.worker w).closure = some f) {v : Fin n} {g : Addr} {k : Nat} (ne : v ≠ w)
    (walking : s.worker v = .settling c g k) :
    Function.update s.futures f future g = s.futures g := by
  obtain ⟨l, sound⟩ := WorkQueue.run_sound (run_queue run)
  apply Function.update_of_ne
  rintro rfl
  exact (run_ledger run).settling_apart (run_wired run) sound walking ne holds

theorem Sized.work (sized : s.Sized size) (alive : s.aborted = false) {a : WorkAction}
    (goesOn : t.aborted = false) (stepped : s.step (.work w a) = some t) :
    potential size t < potential size s := by
  have sized' := sized
  obtain ⟨past, run, -⟩ := sized'
  have ledger := run_ledger run
  cases step_takes stepped with
  | @call _ c closure place present =>
      refine potential_lt_of_work alive rfl rfl rfl rfl (fun _ _ _ _ _ _ => rfl) ?_
      simp [due, place, moveWorker, Worker.due]
  | @ret _ c value place =>
      refine potential_lt_of_work alive rfl rfl rfl rfl (fun _ _ _ _ _ _ => rfl) ?_
      simp [due, place, moveWorker, Worker.due]
  | @fulfill _ c value closure promise place present linked =>
      refine potential_lt_of_work alive rfl rfl rfl rfl (fun _ _ _ _ _ _ => rfl) ?_
      obtain ⟨fits, -⟩ := (run_wired run).closure c closure present
      have linked' := (run_wired run).promise _ _ linked
      simp [due, place, moveWorker, Worker.due, linked', fits]
  | @settle _ c f value future place taken =>
      obtain rfl := SharedFuture.step_settle taken
      have holds : (s.worker w).closure = some c := by rw [place]; rfl
      obtain ⟨task, -, expects⟩ := ledger.fits w c holds
      rw [place] at expects
      obtain rfl : f = c := expects.1
      refine potential_lt_of_work alive rfl rfl rfl rfl
        (fun _ _ _ _ ne walking => futures_apart run holds ne walking) ?_
      simp [due, place, moveWorker, Worker.due, walked, SharedFuture.settleStep,
        Settler.stepsTaken]
  | @walk _ step c f k future place taken =>
      have holds : (s.worker w).closure = some c := by rw [place]; rfl
      obtain ⟨task, -, expects⟩ := ledger.fits w c holds
      rw [place] at expects
      obtain rfl : f = c := expects.1
      have bound := sized.walked_lt place
      obtain ⟨order, walks⟩ := SharedFuture.run_walks (run_future run f)
      have spent := SharedFuture.step_stepsTaken (k := k) walks taken goesOn
      simp only [SharedFuture.walks, decide_true, Bool.toNat_true] at spent
      by_cases last : step = .finish
      · refine potential_lt_of_work alive rfl rfl rfl (if_pos last)
          (fun _ _ _ _ ne walking => futures_apart run holds ne walking) ?_
        simp only [due, last, if_true, Function.update_self, place, Worker.due]
        omega
      · refine @potential_lt_of_work _ _ _ _ _ w size alive (s.worker w) rfl rfl rfl
          ((if_neg last).trans (Function.update_eq_self w s.worker).symm)
          (fun _ _ _ _ ne walking => futures_apart run holds ne walking) ?_
        have next : (if step = .finish then Function.update s.worker w (.releasing f)
            else s.worker) w = .settling f f k := by rw [if_neg last, place]
        simp only [due, next, place, Worker.due, walked, Function.update_self]
        unfold walked at bound
        omega
  | @free _ c place present =>
      refine potential_lt_of_work alive rfl rfl rfl rfl (fun _ _ _ _ _ _ => rfl) ?_
      have outside := Worker.outside_of_closure (ledger.phase w) (c := c) (by rw [place]; rfl)
      simp [due, place, moveWorker, Worker.due, outside]

/-- A closure that is delivered leaves the queue. -/
theorem backlog_deliver (run : (machine n F U).Run past t)
    (enqueued : t.workQueue.enqueued = s.workQueue.enqueued)
    (delivered : t.delivered = s.delivered ++ [c]) :
    t.backlog size + (2 * size c + 11) = s.backlog size := by
  obtain ⟨l, sound⟩ := WorkQueue.run_sound (run_queue run)
  have among := ((delivered_sublist sound).map fun c => 2 * size c + 11).sum_le_sum (by simp)
  rw [delivered, enqueued] at among
  rw [backlog, backlog, delivered, enqueued]
  simp only [List.map_append, List.map_cons, List.map_nil, List.sum_append, List.sum_singleton]
    at among ⊢
  omega

theorem due_of_testing (popping : s.worker w = .popping)
    (testing : (s.workQueue.phase w).testing = true) : s.due size w = 2 := by
  cases place : s.workQueue.phase w <;> simp_all [due, Worker.due, Phase.testing]

theorem Sized.pop (sized : s.Sized size) (alive : s.aborted = false) {a : PopAction}
    (own : a ≠ .spurious) (stepped : s.step (.pop w a) = some t) :
    potential size t < potential size s := by
  obtain ⟨past, run, -⟩ := sized
  have onward := run.step stepped
  cases step_takes stepped with
  | @pop _ workQueue popping taken =>
      obtain ⟨testing, ⟨-, rfl⟩ | ⟨item, queue, record, -, -, rfl⟩⟩ :=
        WorkQueue.popStep_cases taken
      · refine potential_lt alive w (fun v ne => ?_) ?_ rfl
        · exact due_congr rfl (Function.update_of_ne ne ..) rfl fun _ _ _ _ => rfl
        · have awake : s.due size w = 2 := due_of_testing popping testing
          have asleep : Pool.due { s with workQueue := { s.workQueue with
              phase := Function.update s.workQueue.phase w .asleep } } size w = 1 := by
            simp [due, popping, Worker.due]
          rw [awake, asleep]
          exact Nat.add_lt_add_right (by decide) _
      · refine potential_lt alive w (fun v ne => ?_) ?_ rfl
        · refine due_congr rfl (Function.update_of_ne ne ..) ?_ fun _ _ _ _ => rfl
          simp [WorkQueue.lastTo, Ne.symm ne]
        · have spent := @backlog_deliver _ _ _ s _ record.value _ size onward rfl
            (by simp [delivered])
          have awake : s.due size w = 2 := due_of_testing popping testing
          rw [awake, ← spent]
          simp only [due, popping, Function.update_self, Worker.due, WorkQueue.lastTo,
            List.filter_append, List.filter_cons, decide_true, if_true, List.filter_nil,
            List.getLast?_append, List.getLast?_singleton, Option.some_or, Option.map_some,
            Option.elim_some]
          omega
  | @«return» _ c workQueue popping taken =>
      obtain ⟨l, sound⟩ := WorkQueue.run_sound (run_queue run)
      obtain ⟨-, -, -, -, ⟨d, last, value⟩, -⟩ := sound.returnStep taken
      obtain ⟨item, record, holding, -, same⟩ := WorkQueue.returnStep_cases taken
      cases same
      refine potential_lt alive w (fun v ne => ?_) ?_ rfl
      · exact due_congr (Function.update_of_ne ne ..) (Function.update_of_ne ne ..) rfl
          fun _ _ _ _ => rfl
      · have held : s.due size w = 2 * size record.value + 11 := by
          simp [due, popping, holding, last, Worker.due, show d.value = record.value from value]
        rw [held]
        simp only [due, moveWorker, Function.update_self, Worker.due]
        exact Nat.add_lt_add_right (by omega) _
  | spurious => exact absurd rfl own

/-- A worker that ends has nothing more to do. -/
theorem due_terminated {ending : Ending} (gone : s.worker w = .terminated ending) :
    s.due size w = 0 := by
  simp [due, gone, Worker.due]

/-- A worker cancelled in the wait, and the sleeper that gets its signal, if any. -/
theorem sum_due_cancelled (run : (machine n F U).Run past s) (popping : s.worker w = .popping)
    {heir : Option (Fin n)} {workQueue : WorkQueue (Fin n) Addr}
    (taken : s.workQueue.cancelStep w heir = some workQueue) (ending : Ending) :
    ∑ v, ({ s with workQueue := workQueue }.endWorker w ending).due size v <
      ∑ v, s.due size v := by
  let ended (phase : Fin n → Phase) : Pool n F U :=
    endWorker { s with workQueue := { s.workQueue with phase := phase } } w ending
  let gone := Function.update s.workQueue.phase w .cancelled
  have first : ∑ v, (ended gone).due size v + s.due size w = ∑ v, s.due size v := by
    have moved := sum_move (f := s.due size) (g := (ended gone).due size) w fun v ne =>
      due_congr (Function.update_of_ne ne ..) (Function.update_of_ne ne ..) rfl fun _ _ _ _ => rfl
    rwa [due_terminated (s := ended gone) (Function.update_self ..)] at moved
  obtain ⟨woken, phase, signalled, rfl⟩ | ⟨place, -, rfl⟩ := WorkQueue.cancelStep_cases taken
  · have here : s.due size w = 2 := due_of_testing popping (by rw [woken]; rfl)
    obtain ⟨h, -, asleep, rfl⟩ | ⟨-, -, rfl⟩ := condSignal_cases signalled
    · have ne : h ≠ w := by
        rintro rfl
        simp at asleep
      rw [Function.update_of_ne ne] at asleep
      have inWait : s.worker h = .popping := by
        have inPhase := (run_ledger run).phase h
        rw [asleep] at inPhase
        cases place : s.worker h with
        | popping => rfl
        | terminated ending => cases ending <;> simp [place, Worker.InPhase] at inPhase
        | _ => simp [place, Worker.InPhase] at inPhase
      let woken' := Function.update gone h (.woken true)
      have second := sum_move (f := (ended gone).due size) (g := (ended woken').due size) h
        fun v ne => due_congr rfl (Function.update_of_ne ne ..) rfl fun _ _ _ _ => rfl
      have before : (ended gone).due size h = 1 := by
        simp [due, ended, gone, endWorker, moveWorker, ne, inWait, asleep, Worker.due]
      have after : (ended woken').due size h = 2 := by
        simp [due, ended, woken', endWorker, moveWorker, ne, inWait, Worker.due]
      have goal : ∑ v, (ended woken').due size v < ∑ v, s.due size v := by omega
      exact goal
    · have goal : ∑ v, (ended gone).due size v < ∑ v, s.due size v := by omega
      exact goal
  · have here : 0 < s.due size w := by
      rcases place with place | place <;> simp [due, popping, place, Worker.due]
    have goal : ∑ v, (ended gone).due size v < ∑ v, s.due size v := by omega
    exact goal

theorem Sized.cancelled (sized : s.Sized size) (alive : s.aborted = false) {a : CancelAction n}
    (stepped : s.step (.cancelled w a) = some t) : potential size t < potential size s := by
  obtain ⟨past, run, -⟩ := sized
  cases step_takes stepped with
  | @cancelledTask _ c requested place =>
      refine potential_lt_of_work alive rfl rfl rfl rfl (fun _ _ _ _ _ _ => rfl) ?_
      rw [@due_terminated _ _ _ _ w size (.task c) (by simp [endWorker, moveWorker])]
      simp [due, place, Worker.due]
  | @cancelledCallback _ c f k requested place inside =>
      refine potential_lt_of_work alive rfl rfl rfl rfl (fun _ _ _ _ _ _ => rfl) ?_
      rw [@due_terminated _ _ _ _ w size (.callback c) (by simp [endWorker, moveWorker])]
      simp [due, place, Worker.due]
  | @cancelledWait _ heir workQueue requested popping taken =>
      have delivered : workQueue.delivered = s.workQueue.delivered :=
        (WorkQueue.cancelStep_phase taken).2.1
      have enqueued : workQueue.enqueued = s.workQueue.enqueued := by
        rcases WorkQueue.cancelStep_cases taken with ⟨-, _, -, rfl⟩ | ⟨-, -, rfl⟩ <;> rfl
      refine potential_lt_of_sum alive ?_ rfl
      have same : ∀ {u : Pool n F U}, u.workQueue = workQueue →
          u.backlog size = s.backlog size := by
        intro u here
        rw [backlog, backlog, Pool.delivered, Pool.delivered, here, delivered, enqueued]
      rw [same rfl]
      apply Nat.add_lt_add_right
      exact sum_due_cancelled run popping taken _

/-- A record in the store is that of an executor to be joined. -/
theorem executorsLeft_pos (enlisted : s.Enlisted) {e : Addr} {executor : Executor n}
    (present : s.records e = some executor) : 0 < s.executorsLeft := by
  obtain ⟨w, rfl, -⟩ := enlisted.own e executor present
  exact tally_pos_iff.2 ⟨w, by simp [present]⟩

theorem executorsLeft_join (present : s.records w.val ≠ none) (next : Ptr) :
    executorsLeft { s with records := s.records.free w.val, destroyer := .walking next } + 1 =
      s.executorsLeft := by
  have moved := tally_update Option.isSome (fun v : Fin n => s.records v.val) w none
  have same : Function.update (fun v : Fin n => s.records v.val) w none =
      fun v : Fin n => s.records.free w.val v.val := by
    funext v
    by_cases here : v = w
    · subst here
      simp
    · have ne : v.val ≠ w.val := fun equal => here (Fin.ext equal)
      simp [here, Store.free_ne _ ne]
  rw [same, Option.isSome_iff_ne_none.2 present] at moved
  simpa [executorsLeft] using moved

theorem Sized.destroy (sized : s.Sized size) (alive : s.aborted = false) {a : DestroyAction}
    (own : a ≠ .destroy) (stepped : s.step (.destroy a) = some t) :
    potential size t < potential size s := by
  obtain ⟨past, run, -⟩ := sized
  have enlisted := run_enlisted run
  have lt : ∀ {u : Pool n F U}, (∑ w, u.due size w + u.backlog size =
      ∑ w, s.due size w + s.backlog size) →
      u.destroyer.due u.executorsLeft < s.destroyer.due s.executorsLeft →
      potential size u < potential size s := by
    intro u same less
    simp only [potential, alive, same]
    split <;> simp only [Bool.false_eq_true, if_false] <;> omega
  cases a with
  | destroy => exact absurd rfl own
  | next =>
      cases step_takes stepped with
      | next place present =>
          refine lt rfl ?_
          rw [place]
          exact Nat.lt_succ_self _
  | cancel =>
      obtain ⟨v, next, executor, place, present, -, rfl⟩ := enlisted.cancel_cases stepped
      have some_ := executorsLeft_pos enlisted present
      have less : 3 * s.executorsLeft - 1 < 3 * s.executorsLeft := by omega
      refine lt rfl ?_
      rw [place]
      exact less
  | join =>
      obtain ⟨v, next, executor, place, present, -, rfl⟩ := enlisted.join_cases stepped
      have fewer := executorsLeft_join (s := s) (w := v) (by simp [present]) next
      refine lt rfl ?_
      simp only [place, Destroyer.due]
      omega
  | queueDestroy =>
      cases step_takes stepped with
      | @queueDestroy outcome place =>
          refine lt rfl ?_
          cases outcome <;> simp [place, Destroyer.ofQueue, Destroyer.due]

theorem spends (size : Addr → Nat) :
    (machine n F U).Spends (Sized size) (fun a => internal a = true) (potential size) := by
  intro s a t sized own stepped
  refine ⟨sized.step own stepped, ?_⟩
  have alive : s.aborted = false := by
    have enabled := (Option.ite_none_left_eq_some.1 stepped).1
    simpa using enabled
  cases goesOn : t.aborted with
  | true => simp [potential, alive, goesOn]
  | false =>
      cases a with
      | pop w a =>
          refine sized.pop alive ?_ stepped
          rintro rfl
          cases own
      | work w a => exact sized.work alive goesOn stepped
      | destroy a =>
          refine sized.destroy alive ?_ stepped
          rintro rfl
          cases own
      | cancelled w a => exact sized.cancelled alive stepped
      | _ => cases own

/-- **A pool that its callers leave alone comes to rest**: from any state, the steps of
its workers, of cancellations and of a teardown under way are no more than some bound,
in whatever order they are taken, and lead to a state where none is left to take. -/
theorem internal_steps_end (run : (machine n F U).Run past s) :
    (∃ bound, ∀ more t, (machine n F U).Steps s more t →
        (∀ e ∈ more, internal e.2 = true) → more.length ≤ bound) ∧
      ∃ more t, (machine n F U).Steps s more t ∧ (∀ e ∈ more, internal e.2 = true) ∧
        (machine n F U).Stuck (fun a => internal a = true) t := by
  obtain ⟨size, sized⟩ := run_sized run
  refine ⟨⟨potential size s, ?_⟩, ((spends size).ends sized).exists_stuck⟩
  intro more t steps own
  have bound := ((spends size).length_add_le steps sized own).2
  omega

/-- Two tasks queued for two sleepers, and the pool is destroyed: the steps that follow
are bounded. -/
theorem internal_steps_end_two :
    ∃ past s, (machine 2 String Unit).Run past s ∧ s.destroyer = .walking (some 1) ∧
      s.submissions.length = 2 ∧
      ∃ bound, ∀ more t, (machine 2 String Unit).Steps s more t →
        (∀ e ∈ more, internal e.2 = true) → more.length ≤ bound := by
  obtain ⟨past, s, run, seen⟩ := Machine.exists_run_of_exec (M := machine 2 String Unit)
    (p := fun r => decide (r.2.destroyer = .walking (some 1)) &&
      decide (r.2.submissions.length = 2))
    [.pop 0 .pop, .pop 1 .pop, .execute "multiply" (some 5), .enqueue 0 0 (some 1),
      .execute "multiply" (some 10), .enqueue 1 1 (some 0), .addCleanup 0 0, .destroy .destroy]
    (by decide)
  simp only [Bool.and_eq_true, decide_eq_true_eq] at seen
  exact ⟨past, s, run, seen.1, seen.2, (internal_steps_end run).1⟩

/-! ## Where it ends -/

/-- No step of the pool's own is enabled, except that tasks held up in what they wait for
may not return yet. -/
def AtRest (held : Fin n → Prop) (s : Pool n F U) : Prop :=
  ∀ a, internal a = true → (∀ w value, a = .work w (.ret value) → ¬ held w) → s.step a = none

theorem atRest_of_stuck (stuck : (machine n F U).Stuck (fun a => internal a = true) s) :
    s.AtRest fun _ => False := fun a own _ => stuck a own

variable {held : Fin n → Prop}

theorem AtRest.not_enabled (atRest : s.AtRest held) (alive : s.aborted = false)
    {a : PoolAction n F U} (own : internal a = true)
    (free : ∀ w value, a = .work w (.ret value) → ¬ held w) (acted : s.act a = some t) : False := by
  have none_ := atRest a own free
  rw [step_of_act alive acted] at none_
  cases none_

/-- Where a worker of a pool at rest is. -/
theorem AtRest.worker (atRest : s.AtRest held) (run : (machine n F U).Run past s)
    (alive : s.aborted = false) (w : Fin n) :
    s.isTerminated w = true ∨ s.Asleep w ∨ (s.Running w ∧ held w) := by
  by_contra awake
  simp only [not_or, Bool.not_eq_true] at awake
  obtain ⟨there, awake, free⟩ := awake
  rcases can_go_on run alive there awake with ⟨running, returns⟩ | ⟨running, a, t, own, stepped⟩
  · obtain ⟨t, stepped⟩ := returns none
    have none_ := atRest (.work w (.ret none)) rfl fun v value same isHeld => by
      cases same
      exact free ⟨running, isHeld⟩
    rw [stepped] at none_
    cases none_
  · have own' : internal a = true := by
      unfold byWorker at own
      split at own <;> first | rfl | cases own
    have none_ := atRest a own' fun v value same _ => by
      subst same
      cases own
      cases step_takes stepped with
      | ret place => exact running ⟨_, place⟩
    rw [stepped] at none_
    cases none_

/-- A teardown that joins a worker has asked it to end. -/
theorem joining_requested (run : (machine n F U).Run past s) {next : Ptr}
    (place : s.destroyer = .joining w.val next) : s.cancelRequested w = true := by
  induction run generalizing next with
  | none => cases place
  | @step past s a t before stepped ih =>
      rcases step_aside stepped with ⟨b, rfl⟩ | ⟨v, b, rfl⟩ | aside
      · by_cases isCancel : b = .cancel
        · subst isCancel
          obtain ⟨v, next', executor, -, -, -, rfl⟩ := (run_enlisted before).cancel_cases stepped
          obtain ⟨rfl, -⟩ : v = w ∧ next' = next := by simpa [Fin.val_inj] using place
          simp
        · cases step_takes stepped with
          | cancel => exact absurd rfl isCancel
          | queueDestroy => exact absurd place (Destroyer.ofQueue_ne _ rfl)
          | _ => cases place
      · cases step_takes stepped with
        | _ => exact ih place
      · rw [aside.destroyer] at place
        rw [aside.requested]
        exact ih place

/-- A teardown under way comes to its `queue_destroy`. -/
theorem AtRest.teardown (atRest : s.AtRest held) (run : (machine n F U).Run past s)
    (alive : s.aborted = false) : s.destroyer = .idle ∨ s.destroyer.queueGone = true := by
  have enlisted := run_enlisted run
  have none_ : ∀ {a : DestroyAction} {t}, a ≠ .destroy → s.destroyStep a = some t → False := by
    intro a t own acted
    refine atRest.not_enabled (a := .destroy a) alive ?_ (by simp) acted
    cases a with
    | destroy => exact absurd rfl own
    | _ => rfl
  have record : ∀ e, s.destroyer.record = some e → ∃ executor w, s.records e = some executor ∧
      w.val = e ∧ executor.thread = some w := by
    intro e at_
    obtain ⟨executor, present⟩ := Option.ne_none_iff_exists'.1 (at_record run at_)
    obtain ⟨w, same, thread⟩ := enlisted.own e executor present
    exact ⟨executor, w, present, same, thread⟩
  cases place : s.destroyer with
  | idle => exact Or.inl rfl
  | atReleased | done => exact Or.inr rfl
  | walking next =>
      cases next with
      | none =>
          have ends : ∃ outcome, queueDestroy 1 s.workQueue.queue = some outcome := by
            rcases queueDestroy_one s.workQueue.queue with ⟨-, done⟩ | ⟨item, -, frees | reads⟩
            · exact ⟨_, done⟩
            · exact ⟨_, frees⟩
            · exact ⟨_, reads⟩
          obtain ⟨outcome, ended⟩ := ends
          exact (none_ (a := .queueDestroy) (by simp)
            (by simp [destroyStep, place, ended]; rfl)).elim
      | some e =>
          obtain ⟨executor, w, present, -, -⟩ := record e (by rw [place]; rfl)
          exact (none_ (a := .next) (by simp) (by simp [destroyStep, place, present]; rfl)).elim
  | cancelling e next =>
      obtain ⟨executor, w, present, -, thread⟩ := record e (by rw [place]; rfl)
      exact (none_ (a := .cancel) (by simp)
        (by simp [destroyStep, place, present, thread]; rfl)).elim
  | joining e next =>
      -- the worker to be joined is gone, or at a cancellation point
      obtain ⟨executor, w, present, rfl, thread⟩ := record e (by rw [place]; rfl)
      have requested := joining_requested run place
      rcases atRest.worker run alive w with gone | ⟨popping, asleep⟩ | ⟨⟨c, running⟩, -⟩
      · exact (none_ (a := .join) (by simp)
          (by simp [destroyStep, place, present, thread, gone]; rfl)).elim
      · exact (atRest.not_enabled (a := .cancelled w (.wait none)) alive rfl (by simp) (by
          simp [act, cancelledStep, requested, popping, WorkQueue.cancelStep, asleep]; rfl)).elim
      · exact (atRest.not_enabled (a := .cancelled w .task) alive rfl (by simp) (by
          simp [act, cancelledStep, requested, running]; rfl)).elim

/-! ## What is done by then -/

/-- The queue has delivered the closure, or will if it is popped often enough. -/
def Kept (s : Pool n F U) (i : Addr) : Prop := i ∈ s.delivered ∨ s.workQueue.OnChain i

theorem kept_iff {m : LossyQueue Addr} (represents : s.workQueue.Represents m) :
    s.Kept i ↔ i ∈ m.taken ++ m.pending := by
  obtain ⟨l, sound, pending, -, taken⟩ := represents
  rw [Kept, sound.onChain_iff, List.mem_append, taken, pending]
  rfl

theorem kept_step (run : (machine n F U).Run past s) {a : PoolAction n F U}
    (own : internal a = true) (stepped : s.step a = some t) (kept : s.Kept i) : t.Kept i := by
  obtain ⟨-, m, -, represents⟩ := WorkQueue.simulates_lossy.run (run_queue run)
  rcases Machine.moves_cases (projects_queue s a t stepped) with ⟨-, same⟩ | ⟨b, named, moves⟩
  · have same' : t.workQueue = s.workQueue := same
    simpa only [Kept, delivered, same'] using kept
  · obtain ⟨m', moved, represents'⟩ :=
      WorkQueue.simulates_lossy.step s.workQueue m b t.workQueue represents moves
    have same : m'.taken ++ m'.pending = m.taken ++ m.pending := by
      rcases Machine.moves_cases moved with ⟨-, rfl⟩ | ⟨call, seen, took⟩
      · rfl
      · cases b with
        | enqueue item value wake =>
            unfold queueAction at named
            split at named <;> cases named
            cases own
        | pop w =>
            obtain ⟨-, rfl⟩ : s.workQueue.queue.head.isSome = true ∧ LossyCall.take = call := by
              simpa [WorkQueue.lossyCall] using seen
            exact LossyQueue.take_values took
        | «return» | spurious | cancel => cases seen
    rw [kept_iff represents', same, ← kept_iff represents]
    exact kept

theorem kept_steps (run : (machine n F U).Run past s) (steps : (machine n F U).Steps s more t)
    (own : ∀ e ∈ more, internal e.2 = true) (kept : s.Kept i) : t.Kept i := by
  induction steps with
  | none => exact kept
  | @step more u a v before stepped ih =>
      have earlier := ih fun e member => own e (List.mem_append_left _ member)
      exact kept_step (run.append before) (own (u, a) (by simp)) stepped earlier

/-- Sleepers have finished whatever they were given, and nothing is waiting for them. -/
theorem resolved_of_asleep (workers : 0 < n) (run : (machine n F U).Run past s)
    (asleep : ∀ w, s.Asleep w) (kept : s.Kept i) :
    futureIsResolved (s.futures i).future = true := by
  rw [resolved_iff run]
  have delivered : i ∈ s.delivered := by
    rcases kept with delivered | ⟨l, holds, member⟩
    · exact delivered
    · obtain ⟨m, sound, covered⟩ := WorkQueue.run_covered (run_queue run)
      obtain rfl := covered.chain_empty (c := ⟨0, workers⟩) (asleep _).2 fun w => by
        rw [(asleep w).2]
        rfl
      obtain rfl := holds.unique sound.shaped.holds
      cases member
  obtain ⟨d, member, rfl⟩ := List.mem_map.1 delivered
  obtain ⟨popping, sleeping⟩ := asleep d.consumer
  have notBusy : ¬ s.Busy d := by
    rintro (holds | ⟨⟨item, holding⟩, -⟩)
    · simp [popping, Worker.closure] at holds
    · simp [sleeping] at holding
  obtain ⟨task, value, -, life⟩ := (run_ledger run).finished d member notBusy
  rw [show (s.futures d.value).outcomes = _ from congrArg Life.outcomes life]
  simp [Life.settled]

/-- The pool's own steps begin no teardown and destroy no future. -/
theorem idle_steps (steps : (machine n F U).Steps s more t)
    (own : ∀ e ∈ more, internal e.2 = true) (idle : s.destroyer = .idle) : t.destroyer = .idle := by
  induction steps with
  | none => exact idle
  | @step more u a v before stepped ih =>
      have idle := ih fun e member => own e (List.mem_append_left _ member)
      have own' : internal a = true := own (u, a) (by simp)
      cases step_takes stepped with
      | destroy => cases own'
      | next place | cancel place | join place | queueDestroy place =>
          rw [idle] at place
          cases place
      | _ => exact idle

theorem inTime_append (inTime : ∀ e ∈ past, e.1.destroysInTime e.2 = true)
    (own : ∀ e ∈ more, internal e.2 = true) :
    ∀ e ∈ past ++ more, e.1.destroysInTime e.2 = true := by
  intro e recorded
  rcases List.mem_append.1 recorded with earlier | later
  · exact inTime e earlier
  · have own' := own e later
    cases action : e.2 with
    | destroyFuture => simp [action, internal] at own'
    | _ => rfl

/-- Where everybody is asleep, what had been enqueued earlier is done. -/
theorem resolved_at_rest (workers : 0 < n) (run : (machine n F U).Run past s)
    (steps : (machine n F U).Steps s more t) (own : ∀ e ∈ more, internal e.2 = true)
    (asleep : ∀ w, t.Asleep w) (enqueued : i ∈ s.workQueue.enqueued) (notDropped : ¬ s.Dropped i) :
    futureIsResolved (t.futures i).future = true := by
  refine resolved_of_asleep workers (run.append steps) asleep (kept_steps run steps own ?_)
  by_contra lost
  exact notDropped ⟨enqueued, fun delivered => lost (Or.inl delivered),
    fun onChain => lost (Or.inr onChain)⟩

/-- **Where a pool comes to rest, its work is done.**  No teardown has begun and every
future destroyed was destroyed in time.  Left alone by its callers until none of its steps
is left, which the returns of tasks and callbacks are among, and with no assertion failed,
every worker is asleep, every closure enqueued earlier has been run and its future
resolved, unless the queue had dropped it by then, and no worker has come late. -/
theorem rest_reached (workers : 0 < n) (run : (machine n F U).Run past s)
    (inTime : ∀ e ∈ past, e.1.destroysInTime e.2 = true) (idle : s.destroyer = .idle)
    (steps : (machine n F U).Steps s more t) (own : ∀ e ∈ more, internal e.2 = true)
    (stuck : (machine n F U).Stuck (fun a => internal a = true) t) (alive : t.aborted = false) :
    NoLateTouch (past ++ more) ∧ (∀ w, t.Asleep w) ∧
      ∀ i ∈ s.workQueue.enqueued, ¬ s.Dropped i →
        futureIsResolved (t.futures i).future = true := by
  have later := run.append steps
  obtain ⟨l, torn⟩ := run_torn later
  have asleep : ∀ w, t.Asleep w := by
    intro w
    have there := torn.alive_of_idle (idle_steps steps own idle) w
    simpa [there] using (atRest_of_stuck stuck).worker later alive w
  exact ⟨noLateTouch_of_inTime later (inTime_append inTime own), asleep,
    fun i enqueued notDropped => resolved_at_rest workers run steps own asleep enqueued notDropped⟩

/-- With no teardown begun, sleepers and tasks held up are at rest. -/
theorem atRest_of_parked (run : (machine n F U).Run past s) (idle : s.destroyer = .idle)
    (parked : ∀ w, s.Asleep w ∨ (s.Running w ∧ held w)) : s.AtRest held := by
  obtain ⟨l, torn⟩ := run_torn run
  intro a own free
  by_contra enabled
  obtain ⟨t, stepped⟩ := Option.ne_none_iff_exists'.1 enabled
  have asleep : ∀ {w}, s.worker w = .popping → s.workQueue.phase w = .asleep := by
    intro w popping
    rcases parked w with asleep | ⟨⟨c, running⟩, -⟩
    · exact asleep.2
    · rw [popping] at running
      cases running
  have place : ∀ {w place}, s.worker w = place → place = .popping ∨ ∃ c, place = .running c := by
    intro w place here
    rcases parked w with asleep | ⟨⟨c, running⟩, -⟩
    · exact Or.inl (here.symm.trans asleep.1)
    · exact Or.inr ⟨c, here.symm.trans running⟩
  cases step_takes stepped with
  | pop popping taken =>
      obtain ⟨testing, -⟩ := WorkQueue.popStep_cases taken
      simp [asleep popping, Phase.testing] at testing
  | «return» popping taken =>
      obtain ⟨item, record, holding, -⟩ := WorkQueue.returnStep_cases taken
      simp [asleep popping] at holding
  | call there | fulfill there | settle there | walk there | free there =>
      rcases place there with here | ⟨c, here⟩ <;> cases here
  | @ret w c value there =>
      rcases parked w with ⟨popping, -⟩ | ⟨-, isHeld⟩
      · rw [there] at popping
        cases popping
      · exact free w value rfl isHeld
  | next there | cancel there | join there | queueDestroy there =>
      rw [idle] at there
      cases there
  | cancelledWait requested | cancelledTask requested | cancelledCallback requested =>
      rw [torn.calm idle] at requested
      cases requested
  | _ => cases own

/-- A pool that is destroyed is at rest: its workers are gone. -/
theorem atRest_of_done (run : (machine n F U).Run past s) (done : s.destroyer = .done) :
    s.AtRest held := by
  obtain ⟨l, torn⟩ := run_torn run
  have gone : ∀ {w place}, s.worker w = place → ∃ ending, place = .terminated ending := by
    rintro w place rfl
    exact isTerminated_iff.1 (torn.all_terminated (by rw [done]; rfl) w)
  intro a own _
  by_contra enabled
  obtain ⟨t, stepped⟩ := Option.ne_none_iff_exists'.1 enabled
  cases step_takes stepped with
  | pop place | «return» place | call place | ret place | fulfill place | settle place
  | walk place | free place | cancelledWait _ place | cancelledTask _ place
  | cancelledCallback _ place =>
      obtain ⟨ending, same⟩ := gone place
      cases same
  | next place | cancel place | join place | queueDestroy place =>
      rw [done] at place
      cases place
  | _ => cases own

/-- One worker: the first task is done and its future destroyed, two more are submitted,
and then nobody disturbs it. -/
theorem rest_reached_two :
    ∃ past s more t, (machine 1 String Unit).Run past s ∧
      (machine 1 String Unit).Steps s more t ∧ s.stage 0 = .destroyed ∧ (∀ w, ¬ s.Asleep w) ∧
      futureIsResolved (s.futures 1).future = false ∧ NoLateTouch (past ++ more) ∧
      futureIsResolved (t.futures 1).future = true ∧
      futureIsResolved (t.futures 2).future = true := by
  obtain ⟨past, s, more, t, run, steps, actions, seen⟩ :=
    Machine.exists_steps_of_exec (M := machine 1 String Unit)
      (p := fun r t => decide (r.2.stage 0 = .destroyed) &&
        decide (∀ w, r.2.workQueue.phase w ≠ .asleep) &&
        !futureIsResolved (r.2.futures 1).future && decide (r.2.destroyer = .idle) &&
        decide (∀ w, t.worker w = .popping ∧ t.workQueue.phase w = .asleep) && !t.aborted &&
        decide (t.destroyer = .idle) && decide (r.2.workQueue.enqueued = [0, 1, 2]) &&
        (r.1.all fun e => !e.1.severs e.2) && r.1.all fun e => e.1.destroysInTime e.2)
      (executeCall 0 "multiply" (some 5) ++ executorTurn 0 (some 15) 1 ++ getAndDestroy 0 ++
        executeCall 1 "multiply" (some 10) ++ executeCall 2 "multiply" (some 15))
      (executorTurn 0 (some 20) 1 ++ executorTurn 0 (some 30) 1 ++ [.pop 0 .pop]) (by decide)
  simp only [Bool.and_eq_true, decide_eq_true_eq, Bool.not_eq_true', List.all_eq_true] at seen
  obtain ⟨⟨⟨⟨⟨⟨⟨⟨⟨destroyed, awake⟩, pending⟩, idle⟩, asleep⟩, alive⟩, idle'⟩, enqueued⟩, never⟩,
    inTime⟩ := seen
  have own : ∀ e ∈ more, internal e.2 = true := by
    intro e member
    have listed : e.2 ∈ more.map Prod.snd := List.mem_map_of_mem member
    rw [actions] at listed
    exact List.all_eq_true.1 (by decide) e.2 listed
  have atRest : t.AtRest fun _ => False :=
    atRest_of_parked (run.append steps) idle' fun w => Or.inl (asleep w)
  have stuck : (machine 1 String Unit).Stuck (fun a => internal a = true) t :=
    fun a own => atRest a own fun _ _ _ => id
  have kept := not_dropped run never
  obtain ⟨untouched, -, resolved⟩ :=
    rest_reached (by decide) run inTime idle steps own stuck alive
  exact ⟨past, s, more, t, run, steps, destroyed, fun w sleeping => awake w sleeping.2, pending,
    untouched, resolved 1 (by simp [enqueued]) (kept 1), resolved 2 (by simp [enqueued]) (kept 2)⟩

end Pool

end Cfutures
