/-
# Pool.Behaviours -- every behaviour of the task pool is one of the code's

The converse of `refines_tasks`.  An action of the task pool is played by steps that lead
from one state at rest to the next.

    submit    execute
    put i     [the workers go to sleep]  enqueue  addCleanup  a caller's addCallback
    take w    [the callback returns, the walk ends, free]  pop  return
    call w    call
    finish w  return  fulfill  settle  the walk, up to the callback
    quit w    next  cancel  the worker ends  join

So what callers of a pool can see of it is what the task pool does, no less and no
more (`task_behaviours_iff`).
-/
import Cfutures.Pool.Rest

namespace Cfutures

open Cfutures.Theory

set_option autoImplicit false

universe u v

/-- A whole `queue_pop`, nobody in between. -/
theorem WorkQueue.exists_take {C : Type u} {α : Type v} [Fintype C] [DecidableEq C]
    {s : WorkQueue C α} {past : List (WorkQueue C α × QueueAction C α)}
    (run : (WorkQueue.machine C α).Run past s) {c : C} (testing : (s.phase c).testing = true)
    (atHead : s.queue.head.isSome = true) :
    ∃ t value r, s.popStep c = some t ∧ t.returnStep c = some (value, r) ∧
      r.enqueued = s.enqueued ∧ ∀ d, d ≠ c → r.phase d = s.phase d := by
  obtain ⟨t, popped⟩ := exists_pop run testing
  have stepped : (WorkQueue.machine C α).step s (.pop c) = some t := popped
  obtain ⟨l, sound⟩ := run_sound (run.step stepped)
  obtain ⟨-, ⟨empty, -⟩ | ⟨item, queue, record, -, -, rfl⟩⟩ := popStep_cases popped
  · simp [empty] at atHead
  obtain ⟨-, -, record', present', -⟩ := sound.held c item (Function.update_self ..)
  refine ⟨_, record'.value, { s with
    queue := { queue with items := queue.items.free item }
    phase := Function.update (Function.update s.phase c (.holding item)) c .outside
    delivered := s.delivered ++ [⟨c, record.value, s.occurrence item⟩] }, popped, ?_, rfl, ?_⟩
  · have present'' : queue.items item = some record' := present'
    simp [returnStep, queuePopReturn, present'']
  · intro d ne
    simp [ne]

namespace Pool

variable {n : Nat} {F : Type u} {U : Type v} {s t : Pool n F U} {i c f : Addr} {v w : Fin n}
variable {m m' : TaskPool n F} {past : List (Pool n F U × PoolAction n F U)} {u : U}

/-! ## Submitting -/

theorem Rest.submit (rest : Rest u s m) (fn : F) (args : Ptr) :
    ∃ t, Plays s [.submit fn args] t ∧ t.Calm u ∧ ∀ w, t.Parked w := by
  obtain ⟨⟨past, run⟩, -, calm, parked⟩ := rest
  have unborn : s.stage s.submissions.length = .unborn := by
    by_contra born
    exact absurd (((run_wired run).born _).1 born) (lt_irrefl _)
  refine ⟨_, .seen (calm.step .execute) rfl, ?_, ?_⟩
  · refine ⟨calm.alive, calm.teardown, calm.listed, ?_, ?_⟩
    · intro i early
      by_cases same : i = s.submissions.length
      · subst same
        exact calm.young _ (Or.inl unborn)
      · exact calm.young i (by simpa [setStage, same] using early)
    · intro i born queued
      have ne : i ≠ s.submissions.length := by
        rintro rfl
        simp [setStage] at queued
      simp only [setStage, Function.update_of_ne ne] at born queued ⊢
      exact calm.returned i born queued
  · intro w
    exact (parked w).congr rfl (Or.inl rfl) (fun _ _ => rfl) fun _ _ _ _ => rfl

/-! ## Into the queue -/

/-- Before anything is in the queue a worker that looks goes to sleep. -/
theorem Rest.sleep (rest : Rest u s m) (empty : s.workQueue.enqueued = [])
    (popping : s.worker w = .popping) (outside : s.workQueue.phase w = .outside) :
    ∃ t, Plays s [] t ∧ Rest u t m ∧ t.destroyer = s.destroyer ∧ t.worker = s.worker ∧
      t.workQueue.enqueued = [] ∧
      t.workQueue.phase = Function.update s.workQueue.phase w .asleep := by
  obtain ⟨past, run⟩ := rest.run
  have atHead : s.workQueue.queue.head = none := by
    obtain ⟨l, sound⟩ := WorkQueue.run_sound (run_queue run)
    have sizes := sound.account
    rw [empty, List.length_nil, Nat.le_zero, Nat.add_eq_zero_iff] at sizes
    obtain rfl := List.length_eq_zero_iff.1 sizes.2
    exact sound.shaped.holds
  have taken : s.workQueue.popStep w = some { s.workQueue with
      phase := Function.update s.workQueue.phase w .asleep } := by
    simp [WorkQueue.popStep, outside, Phase.testing, atHead]
  have plays := Machine.Plays.unseen (M := machine n F U) (f := taskAction)
    (rest.calm.step (.pop popping taken)) (by simp [taskAction, atHead])
  refine ⟨_, plays, rest.of_plays plays rfl ?_ ?_, rfl, rfl, empty, rfl⟩
  · exact ⟨rest.calm.alive, rest.calm.teardown, rest.calm.listed, rest.calm.young,
      rest.calm.returned⟩
  · intro v
    by_cases same : v = w
    · subst same
      simp [Parked, popping]
    · exact (rest.parked v).congr rfl (Or.inl (Function.update_of_ne same ..)) (fun _ _ => rfl)
        fun _ _ _ _ => rfl

theorem Rest.sleep_all (rest : Rest u s m) (empty : s.workQueue.enqueued = [])
    (ws : List (Fin n)) : ∃ t, Plays s [] t ∧ Rest u t m ∧ t.destroyer = s.destroyer ∧
      t.worker = s.worker ∧ t.workQueue.enqueued = [] ∧
      ∀ w ∈ ws, s.worker w = .popping → t.workQueue.phase w ≠ .outside := by
  induction ws with
  | nil => exact ⟨s, .refl s, rest, rfl, rfl, empty, by simp⟩
  | cons w ws ih =>
      obtain ⟨t, plays, rest', destroyer, worker, empty', asleep⟩ := ih
      by_cases looks : s.worker w = .popping ∧ t.workQueue.phase w = .outside
      · obtain ⟨r, plays', rest'', destroyer', worker', empty'', phase⟩ :=
          rest'.sleep empty' (by rw [worker]; exact looks.1) looks.2
        refine ⟨r, plays.trans plays', rest'', destroyer'.trans destroyer, worker'.trans worker,
          empty'', ?_⟩
        intro v member popping
        rw [phase]
        by_cases same : v = w
        · simp [same]
        · rw [Function.update_of_ne same]
          exact asleep v ((List.mem_cons.1 member).resolve_left same) popping
      · refine ⟨t, plays, rest', destroyer, worker, empty', ?_⟩
        intro v member popping
        rcases List.mem_cons.1 member with rfl | among
        · exact fun outside => looks ⟨popping, outside⟩
        · exact asleep v among popping

/-- At rest, and with every worker in `queue_pop` past its first look. -/
theorem Rest.waits (rest : Rest u s m) : ∃ t, Plays s [] t ∧ Rest u t m ∧
    t.destroyer = s.destroyer ∧
    ∀ w, t.worker w = .popping → t.workQueue.phase w ≠ .outside := by
  by_cases empty : s.workQueue.enqueued = []
  · obtain ⟨t, plays, rest', destroyer, worker, -, asleep⟩ := rest.sleep_all empty (List.finRange n)
    refine ⟨t, plays, rest', destroyer, ?_⟩
    intro w popping
    exact asleep w (List.mem_finRange w) (worker ▸ popping)
  · refine ⟨s, .refl s, rest, rfl, ?_⟩
    intro w popping outside
    have parked := rest.parked w
    simp only [Parked, popping, outside] at parked
    exact empty parked

/-- What `future_pool_execute` and then a caller register on a new future. -/
theorem exists_linked (u : U) (i : Addr) : ∃ future₁ future₂ : SharedFuture (CallbackFn U),
    SharedFuture.start.step (.addCallback 0 (some .cleanupExecute) (some i)) = some future₁ ∧
      future₁.aborted = false ∧
      future₁.step (.addCallback 1 (some (.user u)) (some 0)) = some future₂ ∧
      Linked u i future₂ :=
  ⟨_, _, rfl, rfl, rfl, rfl, rfl, rfl, rfl⟩

/-- The rest of `future_pool_execute`, and a caller's `future_add_callback`. -/
theorem plays_register (alive : s.aborted = false) (there : s.destroyer.queueGone = false)
    (enqueued : s.stage i = .enqueued) (young : s.futures i = SharedFuture.start) (u : U) :
    ∃ future, Linked u i future ∧ Plays s [] { s with
      futures := Function.update s.futures i future
      aborted := false
      stage := Function.update s.stage i .returned } := by
  obtain ⟨future₁, future₂, added₁, alive₁, added₂, linked⟩ := exists_linked u i
  rw [← young] at added₁
  refine ⟨future₂, linked, ?_⟩
  have first := step_of_takes alive there (.addCleanup enqueued added₁)
  let r : Pool n F U := setStage { s with
    futures := Function.update s.futures i future₁, aborted := future₁.aborted } i .returned
  have second : r.step (.client i (.addCallback 1 (some u) (some 0))) = some { r with
      futures := Function.update r.futures i future₂, aborted := future₂.aborted } :=
    step_of_takes (s := r) alive₁ there
      (.client (by simp [r, setStage]) (by simpa [r, setStage, ClientAction.onFuture] using added₂))
  have plays := (Machine.Plays.unseen (M := machine n F U) (f := taskAction) first rfl).trans
    (.unseen second rfl)
  simpa [r, setStage, linked.alive] using plays

/-- A future that is being walked over has been settled. -/
theorem settling_settled (run : (machine n F U).Run past s) {k : Nat}
    (place : s.worker w = .settling c f k) : f = c ∧ k = 0 ∧ (s.futures f).outcomes ≠ [] := by
  obtain ⟨task, -, expects⟩ := (run_ledger run).fits w c (by rw [place]; rfl)
  rw [place] at expects
  obtain ⟨rfl, first, value, life⟩ := expects
  refine ⟨rfl, first, ?_⟩
  rw [show (s.futures f).outcomes = _ from congrArg Life.outcomes life]
  simp [Life.settled]

theorem Rest.put (rest : Rest u s m) (stepped : m.putStep i = some m') :
    ∃ t, Plays s [.put i] t ∧ t.Calm u ∧ ∀ w, t.Parked w := by
  obtain ⟨r, first, rest', -, waits⟩ := rest.waits
  obtain ⟨⟨past, run⟩, represents, calm, parked⟩ := rest'
  have wired := run_wired run
  -- not put yet, so `future_pool_execute` has come to its `queue_enqueue`
  have created : r.stage i = .created := by
    simp only [TaskPool.putStep, Option.ite_none_right_eq_some] at stepped
    obtain ⟨⟨born, new⟩, -⟩ := stepped
    rw [represents.tasks] at born
    rw [represents.put, wired.queued] at new
    by_contra other
    have here := (calm.returned i ((wired.born i).2 born) other).1
    simp [here, Stage.isQueued] at new
  have young := calm.young i (Or.inr created)
  obtain ⟨item, wake, workQueue, taken⟩ := WorkQueue.exists_enqueue (run_queue run) i
  have enqueue : r.Takes (.enqueue i item wake)
      (setStage { r with workQueue := workQueue } i .enqueued) := .enqueue created taken
  have second := Machine.Plays.seen (M := machine n F U) (f := taskAction) (calm.step enqueue) rfl
  obtain ⟨future, linked, third⟩ := plays_register
    (s := setStage { r with workQueue := workQueue } i .enqueued) calm.alive calm.there
    (by simp [setStage]) young u
  refine ⟨_, (first.trans second).trans third, ?_, ?_⟩
  · refine ⟨rfl, calm.teardown, calm.listed, ?_, ?_⟩
    · intro j early
      have ne : j ≠ i := by
        rintro rfl
        simp at early
      simp only [setStage, Function.update_of_ne ne] at early ⊢
      exact calm.young j early
    · intro j born queued
      by_cases same : j = i
      · subst same
        simpa using linked
      · simp only [setStage, Function.update_of_ne same] at born queued ⊢
        exact calm.returned j born queued
  · intro v
    obtain ⟨-, queue, phase, -, signalled, rfl⟩ := WorkQueue.enqueueStep_cases taken
    refine (parked v).congr rfl (condSignal_apply signalled v)
      (fun popping outside => absurd outside (waits v popping)) ?_
    intro c f k place
    have ne : f ≠ i := by
      rintro rfl
      have settled := (settling_settled run place).2.2
      rw [young] at settled
      exact settled rfl
    simp [setStage, ne]

/-! ## Through a walk -/

/-- Played from `r`: worker `w` is in walk `k` of future `f`, and the walk at `place`. -/
structure InWalk (u : U) (w : Fin n) (f : Addr) (k : Nat) (seen : List (TaskAction n F))
    (place : Settler) (r s : Pool n F U) : Prop where
  plays : Plays r seen s
  moved : Moved w f r s
  worker : s.worker w = .settling f f k
  linked : Linked u f (s.futures f)
  call : (s.futures f).call k = place

section Walking

variable {r : Pool n F U} {future : SharedFuture (CallbackFn U)} {k : Nat} {place : Settler}
variable {seen : List (TaskAction n F)} {a : Addr} {record : Callback (CallbackFn U)}

theorem Linked.moved (linked : Linked u f future) {call : Nat → Settler} {loaded : Nat → Option Ptr}
    {executed : List Execution} :
    Linked u f { future with call := call, loaded := loaded, executed := executed } :=
  ⟨linked.alive, linked.head, linked.first, linked.last⟩

theorem InWalk.alive (inWalk : InWalk u w f k seen place r s) (calm : r.Calm u) :
    s.aborted = false ∧ s.destroyer.queueGone = false := by
  refine ⟨inWalk.moved.aborted.trans calm.alive, ?_⟩
  rw [inWalk.moved.destroyer]
  exact calm.there

/-- A step of the walk but the last. -/
theorem InWalk.step (inWalk : InWalk u w f k seen place r s) (calm : r.Calm u) {step : WalkStep}
    {place' : Settler} (goes : (s.futures f).step (.walk k step) = some future)
    (notLast : step ≠ .finish) (linked : Linked u f future) (call : future.call k = place') :
    ∃ t, InWalk u w f k seen place' r t := by
  obtain ⟨alive, there⟩ := inWalk.alive calm
  have stepped := step_of_takes alive there (.walk inWalk.worker goes)
  have plays := inWalk.plays.trans (.unseen stepped rfl)
  rw [List.append_nil] at plays
  refine ⟨_, plays, inWalk.moved.trans ⟨rfl, rfl, rfl, rfl, linked.alive.trans alive.symm, ?_, ?_⟩,
    ?_, by simpa using linked, by simpa using call⟩
  · intro v _
    simp [notLast]
  · intro j ne
    simp [ne]
  · simpa [notLast] using inWalk.worker

theorem InWalk.assertResolved (inWalk : InWalk u w f k seen .settled r s) (calm : r.Calm u)
    (resolved : (s.futures f).future.isResolved = true) :
    ∃ t, InWalk u w f k seen .asserted r t := by
  have goes : (s.futures f).step (.walk k .assertResolved) = some { s.futures f with
      call := Function.update (s.futures f).call k .asserted } := by
    simp [SharedFuture.step, inWalk.linked.alive, SharedFuture.walkStep, inWalk.call,
      futureIsResolved, resolved]
  exact inWalk.step calm goes (by decide) inWalk.linked.moved (by simp)

theorem InWalk.load (inWalk : InWalk u w f k seen .asserted r s) (calm : r.Calm u) :
    ∃ t, InWalk u w f k seen (.walking (some 1)) r t := by
  have goes : (s.futures f).step (.walk k .load) = some { s.futures f with
      call := Function.update (s.futures f).call k (.walking (s.futures f).future.callbacks)
      loaded := Function.update (s.futures f).loaded k
        (some (s.futures f).future.callbacks) } := by
    simp [SharedFuture.step, inWalk.linked.alive, SharedFuture.walkStep, inWalk.call]
  exact inWalk.step calm goes (by decide) inWalk.linked.moved (by simp [inWalk.linked.head])

theorem InWalk.execute (inWalk : InWalk u w f k seen (.walking (some a)) r s) (calm : r.Calm u)
    (present : (s.futures f).records a = some record) (fit : callbackExecutable record = true) :
    ∃ t, InWalk u w f k seen (.executing a) r t := by
  have goes : (s.futures f).step (.walk k .execute) = some { s.futures f with
      call := Function.update (s.futures f).call k (.executing a)
      executed := (s.futures f).executed ++ [⟨k, a, (s.futures f).future.isResolved⟩] } := by
    simp [SharedFuture.step, inWalk.linked.alive, SharedFuture.walkStep, inWalk.call, present, fit,
      futureIsResolved]
  exact inWalk.step calm goes (by decide) inWalk.linked.moved (by simp)

theorem InWalk.next (inWalk : InWalk u w f k seen (.executing a) r s) (calm : r.Calm u)
    (present : (s.futures f).records a = some record) :
    ∃ t, InWalk u w f k seen (.walking record.next) r t := by
  have goes : (s.futures f).step (.walk k .next) = some { s.futures f with
      call := Function.update (s.futures f).call k (.walking record.next) } := by
    simp [SharedFuture.step, inWalk.linked.alive, SharedFuture.walkStep, inWalk.call, present]
  exact inWalk.step calm goes (by decide) inWalk.linked.moved (by simp)

/-- The last step of a walk, and `free (closure)`. -/
theorem InWalk.finish (inWalk : InWalk u w f k seen (.walking none) r s) (calm : r.Calm u)
    (run : (machine n F U).Run past r) :
    ∃ t, Plays r seen t ∧ Moved w f r t ∧ t.worker w = .popping ∧ Linked u f (t.futures f) := by
  obtain ⟨alive, there⟩ := inWalk.alive calm
  let last : SharedFuture (CallbackFn U) := { s.futures f with
    call := Function.update (s.futures f).call k .returned }
  have goes : (s.futures f).step (.walk k .finish) = some last := by
    simp [last, SharedFuture.step, inWalk.linked.alive, SharedFuture.walkStep, inWalk.call]
  let t : Pool n F U := { s with
    futures := Function.update s.futures f last
    aborted := last.aborted
    worker := Function.update s.worker w (.releasing f) }
  have first : s.step (.work w (.walk .finish)) = some t :=
    step_of_takes alive there (.walk inWalk.worker goes)
  have stored : (s.closures f).isSome = true := by
    obtain ⟨more, steps, -⟩ := inWalk.plays
    obtain ⟨closure, present⟩ := closure_present (run.append steps) (w := w) (c := f)
      (by rw [inWalk.worker]; rfl)
    simp [present]
  have second := step_of_takes (s := t) inWalk.linked.alive there
    (.free (w := w) (c := f) (by simp [t]) stored)
  have plays := (inWalk.plays.trans (.unseen first rfl)).trans (.unseen second rfl)
  rw [List.append_nil, List.append_nil] at plays
  refine ⟨_, plays, inWalk.moved.trans ⟨rfl, rfl, rfl, rfl, inWalk.linked.alive.trans alive.symm,
    ?_, ?_⟩, by simp [moveWorker], by simpa [moveWorker, t] using inWalk.linked.moved⟩
  · intro v ne
    simp [moveWorker, t, ne]
  · intro j ne
    simp [moveWorker, t, ne]

/-- The caller's callback returns, the clean-up runs and the closure is released. -/
theorem Rest.resume (rest : Rest u s m) (place : s.worker w = .settling c f k) :
    ∃ t, Plays s [] t ∧ Moved w f s t ∧ t.worker w = .popping ∧ Linked u f (t.futures f) := by
  obtain ⟨⟨past, run⟩, -, calm, parked⟩ := rest
  have executing : (s.futures f).call k = .executing 1 := by
    have here := parked w
    rw [Parked, place] at here
    exact here
  obtain ⟨rfl, -, settled⟩ := settling_settled run place
  have start : InWalk u w f k [] (.executing 1) s s :=
    ⟨.refl s, .refl w f s, place, (calm.settled settled).2, executing⟩
  obtain ⟨s₁, back⟩ := start.next calm start.linked.first
  obtain ⟨s₂, inside⟩ := back.execute calm back.linked.last rfl
  obtain ⟨s₃, through⟩ := inside.next calm inside.linked.last
  exact through.finish calm run

end Walking

/-! ## Taking -/

/-- An idle worker comes to the test of the loop in `queue_pop`. -/
theorem Rest.comes_back (rest : Rest u s m) (idle : m.slot w = .idle) :
    ∃ t, Plays s [] t ∧ t.Calm u ∧ (∀ v, v ≠ w → t.Parked v) ∧ t.worker w = .popping ∧
      (t.workQueue.phase w).testing = true ∧ t.workQueue.queue = s.workQueue.queue := by
  obtain ⟨past, run⟩ := rest.run
  have others := fun v (_ : v ≠ w) => rest.parked v
  obtain ⟨-, popping | ⟨c, f, k, place⟩⟩ | ⟨c, slot, -⟩ | ⟨c, slot, -⟩ | ⟨slot, -⟩ :=
    rest.place_of_slot w
  · have parked := rest.parked w
    simp only [Parked, popping] at parked
    cases at_ : s.workQueue.phase w with
    | outside | woken => exact ⟨s, .refl s, rest.calm, others, popping, by rw [at_]; rfl, rfl⟩
    | asleep =>
        have taken : s.workQueue.spuriousStep w = some { s.workQueue with
            phase := Function.update s.workQueue.phase w (.woken false) } := by
          simp [WorkQueue.spuriousStep, at_]
        refine ⟨_, .unseen (rest.calm.step (.spurious popping taken)) rfl, ?_, ?_, popping,
          by simp [Phase.testing], rfl⟩
        · exact ⟨rest.calm.alive, rest.calm.teardown, rest.calm.listed, rest.calm.young,
            rest.calm.returned⟩
        · intro v ne
          exact (rest.parked v).congr rfl (Or.inl (Function.update_of_ne ne ..))
            (fun _ _ => rfl) fun _ _ _ _ => rfl
    | holding | cancelled =>
        rw [at_] at parked
        exact parked.elim
  · obtain ⟨t, plays, moved, popping, linked⟩ := rest.resume place
    obtain ⟨rfl, -, settled⟩ := settling_settled run place
    have outside : s.workQueue.phase w = .outside := by
      have inPhase := (run_ledger run).phase w
      rwa [place] at inPhase
    refine ⟨t, plays, moved.calm rest.calm (by simp [isTerminated, popping])
      (rest.calm.settled settled).1 linked, ?_, popping,
      by rw [moved.workQueue, outside]; rfl, by rw [moved.workQueue]⟩
    intro v ne
    exact moved.parked run (by rw [place]; rfl) ne (rest.parked v)
  all_goals
    rw [idle] at slot
    cases slot

theorem Rest.take (rest : Rest u s m) (stepped : m.takeStep w = some m') :
    ∃ t, Plays s [.take w] t ∧ t.Calm u ∧ ∀ v, t.Parked v := by
  simp only [TaskPool.takeStep, Option.ite_none_right_eq_some, Option.bind_eq_some_iff] at stepped
  obtain ⟨idle, i, first, -⟩ := stepped
  obtain ⟨past, run⟩ := rest.run
  have atHead : s.workQueue.queue.head.isSome = true := by
    obtain ⟨l, sound, pending, -, -⟩ := rest.represents.queue
    cases l with
    | nil =>
        rw [pending] at first
        cases first
    | cons item l =>
        rw [sound.shaped.holds.1]
        rfl
  obtain ⟨r, back, calm, parked, popping, testing, queue⟩ := rest.comes_back idle
  rw [← queue] at atHead
  have before := run.append back.choose_spec.1
  obtain ⟨popped, c, returned, taken, released, enqueued, others⟩ :=
    WorkQueue.exists_take (run_queue before) testing atHead
  have second := Machine.Plays.seen (M := machine n F U) (f := taskAction)
    (calm.step (.pop popping taken)) (by rw [taskAction, if_pos atHead])
  have third := Machine.Plays.unseen (M := machine n F U) (f := taskAction)
    (step_of_takes (s := { r with workQueue := popped }) calm.alive calm.there
      (.return popping released)) rfl
  refine ⟨_, (back.trans second).trans third,
    calm.move rfl (by simp [popping]) (by simp) rfl rfl rfl rfl rfl, ?_⟩
  intro v
  by_cases same : v = w
  · subst same
    simp [Parked, moveWorker]
  · exact (parked v same).congr (Function.update_of_ne same ..) (Or.inl (others v same))
      (fun _ _ => enqueued) fun _ _ _ _ => rfl

/-! ## Calling, and the result -/

theorem Rest.call (rest : Rest u s m) (stepped : m.callStep w = some m') :
    ∃ t, Plays s [.call w] t ∧ t.Calm u ∧ ∀ v, t.Parked v := by
  obtain ⟨past, run⟩ := rest.run
  obtain ⟨slot, -⟩ | ⟨c, -, place⟩ | ⟨c, slot, -⟩ | ⟨slot, -⟩ := rest.place_of_slot w
  case inr.inl =>
    obtain ⟨closure, present⟩ := closure_present run (w := w) (c := c) (by rw [place]; rfl)
    refine ⟨_, .seen (rest.calm.step (.call place present)) rfl,
      rest.calm.move rfl (by simp [place]) (by simp) rfl rfl rfl rfl rfl, ?_⟩
    intro v
    by_cases same : v = w
    · subst same
      simp [Parked, moveWorker]
    · exact (rest.parked v).congr (Function.update_of_ne same ..) (Or.inl rfl) (fun _ _ => rfl)
        fun _ _ _ _ => rfl
  all_goals
    simp [TaskPool.callStep, slot] at stepped

/-- From a task function to the critical section of `future_set_value`. -/
theorem Calm.settles (calm : s.Calm u) (run : (machine n F U).Run past s)
    (place : s.worker w = .running c) (value : Ptr) :
    ∃ t, InWalk u w c 0 [.finish w value] .settled s t ∧ t.futures c =
      (s.futures c).settleStep (.fulfill value) := by
  have wired := run_wired run
  have holds : (s.worker w).closure = some c := by rw [place]; rfl
  obtain ⟨task, submitted, expects⟩ := (run_ledger run).fits w c holds
  rw [place] at expects
  have unsettled : (s.futures c).outcomes = [] := congrArg Life.outcomes expects
  have linked := (calm.holds run holds).2
  obtain ⟨closure, present⟩ := closure_present run holds
  have own := (wired.closure c closure present).1
  obtain ⟨promise, known⟩ := run_promises run (List.getElem?_eq_some_iff.1 submitted).1
  rw [← own] at known
  have future : promise.future = c := (wired.promise _ _ known).trans own
  let ran : Pool n F U :=
    moveWorker { s with results := s.results ++ [(c, value)] } w (.ran c value)
  let about : Pool n F U := ran.moveWorker w (.fulfilling c promise.future value)
  let settled : SharedFuture (CallbackFn U) := (s.futures c).settleStep (.fulfill value)
  have goes : (about.futures c).step (.settle (.fulfill value)) = some settled := by
    simp [about, ran, moveWorker, SharedFuture.step, linked.alive, settled]
  have there : about.worker w = .fulfilling c c value := by
    simp [about, moveWorker, future]
  have first : s.step (.work w (.ret value)) = some ran := calm.step (.ret place)
  have second : ran.step (.work w .fulfill) = some about :=
    step_of_takes (s := ran) calm.alive calm.there
      (.fulfill (by simp [ran, moveWorker]) present known)
  have third := step_of_takes (s := about) calm.alive calm.there (.settle there goes)
  have plays := ((Machine.Plays.unseen (M := machine n F U) (f := taskAction) first rfl).trans
    (.unseen second rfl)).trans (.seen third (b := .finish w value) (by simp [taskAction, there]))
  refine ⟨_, ⟨plays, ⟨rfl, rfl, rfl, rfl, linked.alive.trans calm.alive.symm, ?_, ?_⟩,
    ?_, ?_, ?_⟩, ?_⟩
  · intro v ne
    simp [about, ran, moveWorker, ne]
  · intro j ne
    simp [about, ran, moveWorker, ne]
  · simp [about, ran, moveWorker, unsettled]
  · have kept : Linked u c settled := ⟨linked.alive, by simpa [settled, SharedFuture.settleStep]
      using linked.head, linked.first, linked.last⟩
    simpa [moveWorker] using kept
  · simp [moveWorker, settled, SharedFuture.settleStep, unsettled]
  · simp [moveWorker, settled]

theorem Rest.finish (rest : Rest u s m) {value : Ptr} (stepped : m.finishStep w value = some m') :
    ∃ t, Plays s [.finish w value] t ∧ t.Calm u ∧ ∀ v, t.Parked v := by
  obtain ⟨past, run⟩ := rest.run
  obtain ⟨slot, -⟩ | ⟨c, slot, -⟩ | ⟨c, -, place⟩ | ⟨slot, -⟩ := rest.place_of_slot w
  case inr.inr.inl =>
    have holds : (s.worker w).closure = some c := by rw [place]; rfl
    obtain ⟨t₁, settled, future⟩ := rest.calm.settles run place value
    obtain ⟨t₂, asserted⟩ := settled.assertResolved rest.calm (by rw [future]; rfl)
    obtain ⟨t₃, loaded⟩ := asserted.load rest.calm
    obtain ⟨t, inside⟩ := loaded.execute rest.calm loaded.linked.first rfl
    refine ⟨t, inside.plays, inside.moved.calm rest.calm (by simp [isTerminated, inside.worker])
      (rest.calm.holds run holds).1 inside.linked, ?_⟩
    intro v
    by_cases same : v = w
    · subst same
      rw [Parked, inside.worker]
      exact inside.call
    · exact inside.moved.parked run holds same (rest.parked v)
  all_goals
    simp [TaskPool.finishStep, slot] at stepped

/-! ## Ending -/

/-- The teardown has begun. -/
theorem Rest.walking (rest : Rest u s m) :
    ∃ t, Plays s [] t ∧ Rest u t m ∧ ∃ p, t.destroyer = .walking p := by
  rcases rest.calm.teardown with idle | under
  · have plays := Machine.Plays.unseen (M := machine n F U) (f := taskAction)
      (rest.calm.step (.destroy idle)) rfl
    refine ⟨_, plays, rest.of_plays plays rfl ?_ ?_, _, rfl⟩
    · exact ⟨rest.calm.alive, Or.inr ⟨_, rfl⟩, rest.calm.listed, rest.calm.young,
        rest.calm.returned⟩
    · intro v
      exact (rest.parked v).congr rfl (Or.inl rfl) (fun _ _ => rfl) fun _ _ _ _ => rfl
  · exact ⟨s, .refl s, rest, under⟩

/-- The list to be torn down starts with the last worker there. -/
theorem Rest.at_last (rest : Rest u s m) {p : Ptr} (walking : s.destroyer = .walking p)
    (last : ∀ v, w < v → m.slot v = .gone) (there : s.isTerminated w = false) :
    ∃ executor, p = some w.val ∧ s.records w.val = some executor ∧ executor.thread = some w := by
  obtain ⟨past, run⟩ := rest.run
  obtain ⟨l, torn⟩ := run_torn run
  obtain ⟨e, member, executor, present, thread⟩ := torn.covers w there
  have own := (run_enlisted run).own
  have chain := torn.chain
  have sorted := (run_inTurn run).descending l chain
  rw [walking] at chain
  obtain ⟨w', rfl, same⟩ := own e executor present
  obtain rfl : w' = w := Option.some.inj (same.symm.trans thread)
  cases p with
  | none =>
      rw [Chain.none_iff.1 chain] at member
      cases member
  | some a =>
      obtain ⟨executor', m', rfl, present', -⟩ := Chain.some_iff.1 chain
      refine ⟨executor, ?_, present, thread⟩
      rcases List.mem_cons.1 member with atHead | inRest
      · rw [atHead]
      · exfalso
        -- whoever is before it on the list was created later, and is gone
        obtain ⟨v, rfl, -⟩ := own a executor' present'
        have gone := last v ((List.pairwise_cons.1 sorted).1 w'.val inRest)
        obtain ⟨slot, -⟩ | ⟨_, slot, -⟩ | ⟨_, slot, -⟩ | ⟨-, ending, place⟩ := rest.place_of_slot v
        case inr.inr.inr =>
          rw [rest.calm.listed v (by simp [isTerminated, place])] at present'
          cases present'
        all_goals
          rw [gone] at slot
          cases slot

/-- A sleeper or a woken worker can act on a cancellation request. -/
theorem exists_cancelStep {q : WorkQueue (Fin n) Addr}
    (waits : q.phase w = .asleep ∨ ∃ signalled, q.phase w = .woken signalled) :
    ∃ heir workQueue, q.cancelStep w heir = some workQueue ∧
      workQueue.enqueued = q.enqueued := by
  rcases waits with asleep | ⟨signalled, woken⟩
  · exact ⟨none, { q with phase := Function.update q.phase w .cancelled },
      by simp [WorkQueue.cancelStep, asleep], rfl⟩
  · cases signalled with
    | false => exact ⟨none, { q with phase := Function.update q.phase w .cancelled },
        by simp [WorkQueue.cancelStep, woken], rfl⟩
    | true =>
        obtain ⟨heir, phase, signal⟩ :=
          WorkQueue.exists_signal (Function.update q.phase w .cancelled)
        exact ⟨heir, { q with phase := phase }, by simp [WorkQueue.cancelStep, woken, signal], rfl⟩

/-- Worker `w` has ended. -/
structure Ended (w : Fin n) (s t : Pool n F U) : Prop where
  worker : ∃ ending, t.worker = Function.update s.worker w (.terminated ending)
  phase : ∀ v, v ≠ w → t.workQueue.phase v = s.workQueue.phase v ∨
    (s.workQueue.phase v = .asleep ∧ t.workQueue.phase v = .woken true)
  enqueued : t.workQueue.enqueued = s.workQueue.enqueued
  futures : t.futures = s.futures
  stage : t.stage = s.stage
  records : t.records = s.records
  destroyer : t.destroyer = s.destroyer
  aborted : t.aborted = s.aborted

/-- A worker at rest that has been asked to end does. -/
theorem exists_ended (calm : s.Calm u) {requested : Fin n → Bool} {destroyer : Destroyer}
    (asked : requested w = true) (there : destroyer.queueGone = false) (parked : s.Parked w)
    (awake : s.worker w = .popping → s.workQueue.phase w ≠ .outside)
    (free : s.worker w = .popping ∨ (∃ c, s.worker w = .running c) ∨
      ∃ c f k, s.worker w = .settling c f k ∧ Linked u f (s.futures f)) :
    ∃ a t, step { s with cancelRequested := requested, destroyer := destroyer }
      (.cancelled w a) = some t ∧
        Ended w { s with cancelRequested := requested, destroyer := destroyer } t := by
  let r : Pool n F U := { s with cancelRequested := requested, destroyer := destroyer }
  obtain popping | ⟨c, running⟩ | ⟨c, f, k, settling, linked⟩ := free
  · have waits : s.workQueue.phase w = .asleep ∨ ∃ signalled,
        s.workQueue.phase w = .woken signalled := by
      simp only [Parked, popping] at parked
      cases at_ : s.workQueue.phase w with
      | outside => exact absurd at_ (awake popping)
      | asleep => exact Or.inl rfl
      | woken signalled => exact Or.inr ⟨signalled, rfl⟩
      | holding | cancelled =>
          rw [at_] at parked
          exact parked.elim
    obtain ⟨heir, workQueue, taken, enqueued⟩ := exists_cancelStep waits
    have others := (WorkQueue.cancelStep_phase taken).2.2.2.2
    exact ⟨_, _, step_of_takes (s := r) calm.alive there (.cancelledWait asked popping taken),
      ⟨_, rfl⟩, others, enqueued, rfl, rfl, rfl, rfl, rfl⟩
  · exact ⟨_, _, step_of_takes (s := r) calm.alive there (.cancelledTask asked running),
      ⟨_, rfl⟩, fun _ _ => Or.inl rfl, rfl, rfl, rfl, rfl, rfl, rfl⟩
  · have inside : r.inUserCallback f k = true := by
      rw [Parked, settling] at parked
      simp [r, inUserCallback, show (s.futures f).call k = .executing 1 from parked, linked.first]
    exact ⟨_, _, step_of_takes (s := r) calm.alive there (.cancelledCallback asked settling inside),
      ⟨_, rfl⟩, fun _ _ => Or.inl rfl, rfl, rfl, rfl, rfl, rfl, rfl⟩

/-- `executor_destroy` of the last worker there, at rest. -/
theorem Rest.quit (rest : Rest u s m) (stepped : m.quitStep w = some m') :
    ∃ t, Plays s [.quit w] t ∧ t.Calm u ∧ ∀ v, t.Parked v := by
  simp only [TaskPool.quitStep, Option.ite_none_right_eq_some] at stepped
  obtain ⟨last, stepped⟩ := stepped
  obtain ⟨s', begin, rest', p, walking⟩ := rest.walking
  obtain ⟨r, asleep, rest, same, waits⟩ := rest'.waits
  rw [← same] at walking
  obtain ⟨past, run⟩ := rest.run
  have free : r.worker w = .popping ∨ (∃ c, r.worker w = .running c) ∨
      ∃ c f k, r.worker w = .settling c f k ∧ Linked u f (r.futures f) := by
    obtain ⟨-, popping | ⟨c, f, k, place⟩⟩ | ⟨c, slot, -⟩ | ⟨c, -, running⟩ | ⟨slot, -⟩ :=
      rest.place_of_slot w
    · exact Or.inl popping
    · exact Or.inr (Or.inr ⟨c, f, k, place,
        (rest.calm.settled (settling_settled run place).2.2).2⟩)
    · simp [slot] at stepped
    · exact Or.inr (Or.inl ⟨c, running⟩)
    · simp [slot] at stepped
  have there : r.isTerminated w = false := by
    obtain popping | ⟨c, running⟩ | ⟨c, f, k, settling, -⟩ := free <;> simp [isTerminated, *]
  obtain ⟨executor, rfl, present, thread⟩ := rest.at_last walking last there
  have first := rest.calm.step (.next walking present)
  have second := step_of_takes (s := { r with destroyer := .cancelling w.val executor.next })
    rest.calm.alive rfl (.cancel rfl present thread)
  have asked : Function.update r.cancelRequested w true w = true := by simp
  have joining : (Destroyer.joining w.val executor.next).queueGone = false := rfl
  obtain ⟨a, t, third, ended⟩ := exists_ended rest.calm asked joining (rest.parked w) (waits w) free
  obtain ⟨ending, worker⟩ := ended.worker
  have gone : t.isTerminated w = true := by simp [isTerminated, worker]
  have fourth := step_of_takes (ended.aborted.trans rest.calm.alive)
    (by rw [ended.destroyer]; rfl)
    (.join ended.destroyer (by rw [ended.records]; exact present) thread gone)
  have plays := (((begin.trans asleep).trans (.unseen first rfl)).trans (.unseen second rfl)).trans
    ((Machine.Plays.seen (M := machine n F U) (f := taskAction) third (b := .quit w) rfl).trans
      (.unseen fourth rfl))
  refine ⟨_, plays, ⟨ended.aborted.trans rest.calm.alive, Or.inr ⟨_, rfl⟩, ?_, ?_, ?_⟩, ?_⟩
  · intro v away
    by_cases here : v = w
    · subst here
      simp
    · have before : r.isTerminated v = true := by
        simpa [isTerminated, worker, here] using away
      have ne : v.val ≠ w.val := fun same => here (Fin.ext same)
      simp [Store.free_ne _ ne, ended.records, rest.calm.listed v before]
  · simpa [ended.stage, ended.futures] using rest.calm.young
  · simpa [ended.stage, ended.futures] using rest.calm.returned
  · intro v
    by_cases here : v = w
    · subst here
      simp [Parked, worker]
    · refine (rest.parked v).congr ?_ (ended.phase v here) (fun _ _ => ended.enqueued) ?_
      · simp [worker, here]
      · intro c f k _
        simp [ended.futures]

/-! ## All behaviours -/

theorem realizes_tasks (u : U) : Machine.Realizes (machine n F U) (TaskPool.machine n F) taskAction
    (Rest u) where
  start := start_rest
  step := by
    intro s m b m' rest stepped
    have played : ∃ t, Plays s [b] t ∧ t.Calm u ∧ ∀ w, t.Parked w := by
      cases b with
      | submit fn args => exact rest.submit fn args
      | put i => exact rest.put stepped
      | take w => exact rest.take stepped
      | call w => exact rest.call stepped
      | finish w value => exact rest.finish stepped
      | quit w => exact rest.quit stepped
    obtain ⟨t, plays, calm, parked⟩ := played
    have taken : (TaskPool.machine n F).execFrom [] m [b] = some ([(m, b)], m') := by
      simp [Machine.execFrom, stepped]
    obtain ⟨more, steps, seen⟩ := plays
    exact ⟨more, t, steps, seen, rest.of_plays ⟨more, steps, seen⟩ taken calm parked⟩

/-- **The pool is the task pool**: for any sequence of submissions, enqueues, pops, calls,
settlings and ends of workers, the calls that task functions get and the results that
`future_get` reads after it in some run of the code are those of the task pool after it,
and in every run they are. -/
theorem task_behaviours_iff [Nonempty U] (actions : List (TaskAction n F)) (calls : List (F × Ptr))
    (result : Nat → Option Ptr) :
    (∃ past s, (machine n F U).Run past s ∧ Machine.observed taskAction past = actions ∧
        s.called = calls ∧ ∀ i, futureGet (s.futures i).future = result i) ↔
      ∃ past m, (TaskPool.machine n F).exec actions = some (past, m) ∧ m.calls = calls ∧
        m.result = result := by
  constructor
  · rintro ⟨past, s, run, rfl, rfl, reads⟩
    obtain ⟨past', m, done, called, results⟩ := refines_tasks run
    exact ⟨past', m, done, called, funext fun i => (results i).trans (reads i)⟩
  · rintro ⟨past', m, done, rfl, rfl⟩
    obtain ⟨past, s, run, seen, -⟩ :=
      (realizes_tasks (F := F) (n := n) (Classical.arbitrary U)).run done
    obtain ⟨past'', m', done', called, results⟩ := refines_tasks run
    rw [seen, done] at done'
    cases done'
    exact ⟨past, s, run, seen, called.symm, fun i => (results i).symm⟩

/-- One worker, three tasks: the third is put in while the second is alone in the queue and
lost, and the second is cancelled while it runs. -/
theorem task_behaviours_three :
    ∃ past s, (machine 1 String Unit).Run past s ∧
      Machine.observed taskAction past = [.submit "multiply" (some 5), .submit "multiply" (some 10),
        .submit "multiply" (some 15), .put 0, .put 1, .take 0, .put 2, .call 0,
        .finish 0 (some 15), .take 0, .call 0, .quit 0] ∧
      s.called = [("multiply", some 5), ("multiply", some 10)] ∧
      ∀ i, futureGet (s.futures i).future = if i = 0 then some (some 15) else none := by
  refine (task_behaviours_iff _ _ fun i => if i = 0 then some (some 15) else none).2
    ⟨_, _, rfl, rfl, ?_⟩
  funext i
  exact Function.update_apply ..

end Pool

end Cfutures
