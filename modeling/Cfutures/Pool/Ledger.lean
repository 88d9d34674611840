/-
# Pool.Ledger -- whose closure, whose call, whose value

The life of a closure is what has been recorded about it: the calls of its
function, the values they returned and the outcomes its future was given.

    untouched -> called -> answered v -> settled v

`Ledger s` ties it to the queue and the workers.  A closure the queue has not
delivered is untouched.  A delivered one is in the hands of the worker it was
delivered to, and its life is what that worker's place says (`Worker.Expects`), or
the worker has gone on and it is settled.  The queue delivers no closure twice, so
no two workers ever hold the same (`Ledger.apart`): a worker's step on its own
closure leaves every other closure's life alone (`Ledger.move`).
-/
import Cfutures.Pool.Wiring
import Cfutures.Queue.Delivery

namespace Cfutures

open Cfutures.Theory

set_option autoImplicit false

universe u v

structure Life (F : Type u) where
  calls : List (F × Ptr)
  results : List Ptr
  outcomes : List Outcome

namespace Life

variable {F : Type u}

def untouched : Life F := ⟨[], [], []⟩
def called (task : F × Ptr) : Life F := ⟨[task], [], []⟩
def answered (task : F × Ptr) (value : Ptr) : Life F := ⟨[task], [value], []⟩
def settled (task : F × Ptr) (value : Ptr) : Life F := ⟨[task], [value], [.fulfill value]⟩

end Life

/-- The closure a worker has in its hands, outside `queue_pop`. -/
def Worker.closure : Worker → Option Addr
  | .popping | .terminated (.waiting _) => none
  | .fetched c | .running c | .ran c _ | .fulfilling c _ _ | .settling c _ _ | .releasing c
  | .terminated (.task c) | .terminated (.callback c) => some c

/-- The life of a worker's closure, from where the worker is. -/
def Worker.Expects {F : Type u} (c : Addr) (task : F × Ptr) (life : Life F) : Worker → Prop
  | .popping | .terminated (.waiting _) => True
  | .fetched _ => life = .untouched
  | .running _ | .terminated (.task _) => life = .called task
  | .ran _ value => life = .answered task value
  | .fulfilling _ f value => f = c ∧ life = .answered task value
  | .settling _ f k => f = c ∧ k = 0 ∧ ∃ value, life = .settled task value
  | .releasing _ | .terminated (.callback _) => ∃ value, life = .settled task value

/-- Where a worker is in `queue_pop`, from where it is in `executor_thread`. -/
def Worker.InPhase (phase : Phase) : Worker → Prop
  | .popping => phase ≠ .cancelled
  | .terminated (.waiting _) => phase = .cancelled
  | _ => phase = .outside

theorem Worker.outside_of_closure {place : Worker} {phase : Phase} {c : Addr}
    (inPhase : place.InPhase phase) (holds : place.closure = some c) : phase = .outside := by
  cases place with
  | terminated ending => cases ending <;> simp_all [Worker.InPhase, Worker.closure]
  | _ => simp_all [Worker.InPhase, Worker.closure]

/-- A signal takes nobody out of `queue_pop`. -/
theorem Worker.InPhase.of_woken {place : Worker} {phase phase' : Phase}
    (inPhase : place.InPhase phase)
    (moved : phase' = phase ∨ (phase = .asleep ∧ phase' = .woken true)) :
    place.InPhase phase' := by
  rcases moved with rfl | ⟨rfl, rfl⟩
  · exact inPhase
  · cases place with
    | popping => simp [Worker.InPhase]
    | terminated ending => cases ending <;> cases inPhase
    | _ => cases inPhase

namespace Pool

variable {n : Nat} {F : Type u} {U : Type v} {s t : Pool n F U} {i c : Addr} {w : Fin n}
variable {past : List (Pool n F U × PoolAction n F U)} {l : List Addr}

/-- The calls made for a closure: function and argument. -/
def callsOf (s : Pool n F U) (c : Addr) : List (F × Ptr) :=
  (s.calls.filter fun x => decide (x.closure = c)).map fun x => (x.fn, x.args)

/-- What the calls for a closure have returned. -/
def resultsOf (s : Pool n F U) (c : Addr) : List Ptr :=
  (s.results.filter fun x => decide (x.1 = c)).map Prod.snd

def life (s : Pool n F U) (c : Addr) : Life F :=
  { calls := s.callsOf c, results := s.resultsOf c, outcomes := (s.futures c).outcomes }

/-- The closures the queue has delivered. -/
def delivered (s : Pool n F U) : List Addr := s.workQueue.delivered.map Delivery.value

/-- A delivered closure is still with the worker it was delivered to. -/
def Busy (s : Pool n F U) (d : Delivery (Fin n) Addr) : Prop :=
  (s.worker d.consumer).closure = some d.value ∨
    ((∃ item, s.workQueue.phase d.consumer = .holding item) ∧
      s.workQueue.lastTo d.consumer = some d)

structure Ledger (s : Pool n F U) : Prop where
  phase : ∀ w, (s.worker w).InPhase (s.workQueue.phase w)
  owned : ∀ w c, (s.worker w).closure = some c →
    ∃ d, s.workQueue.lastTo w = some d ∧ d.value = c
  fits : ∀ w c, (s.worker w).closure = some c →
    ∃ task, s.submissions[c]? = some task ∧ (s.worker w).Expects c task (s.life c)
  held : ∀ w item d, s.workQueue.phase w = .holding item → s.workQueue.lastTo w = some d →
    s.life d.value = .untouched
  waiting : ∀ c, c ∉ s.delivered → s.life c = .untouched
  finished : ∀ d ∈ s.workQueue.delivered, ¬ s.Busy d →
    ∃ task value, s.submissions[d.value]? = some task ∧ s.life d.value = .settled task value

theorem start_ledger : (start n F U).Ledger where
  phase w := by simp [start, WorkQueue.start, Worker.InPhase]
  owned w c holds := by simp [start, Worker.closure] at holds
  fits w c holds := by simp [start, Worker.closure] at holds
  held w item d holding := by simp [start, WorkQueue.start] at holding
  waiting c _ := rfl
  finished d member := by simp [start, WorkQueue.start] at member

/-! ## Deliveries are single -/

theorem lastTo_mem {d : Delivery (Fin n) Addr} (last : s.workQueue.lastTo w = some d) :
    d ∈ s.workQueue.delivered ∧ d.consumer = w := by
  have member := List.mem_of_getLast? last
  simpa using List.mem_filter.1 member

theorem delivered_sublist (sound : s.workQueue.Sound l) :
    s.delivered.Sublist s.workQueue.enqueued := by
  have values := sound.delivered_sublist.map Prod.fst
  rwa [List.map_map, List.zipIdx_map_fst] at values

theorem delivered_nodup (wired : s.Wired) (sound : s.workQueue.Sound l) : s.delivered.Nodup :=
  wired.once.sublist (delivered_sublist sound)

/-- No closure is delivered twice. -/
theorem delivery_unique (wired : s.Wired) (sound : s.workQueue.Sound l)
    {d e : Delivery (Fin n) Addr} (first : d ∈ s.workQueue.delivered)
    (second : e ∈ s.workQueue.delivered) (same : d.value = e.value) : d = e :=
  List.inj_on_of_nodup_map (delivered_nodup wired sound) first second same

theorem delivered_born (wired : s.Wired) (sound : s.workQueue.Sound l) (member : c ∈ s.delivered) :
    ∃ task, s.submissions[c]? = some task := by
  have queued := (wired.queued c).1 ((delivered_sublist sound).subset member)
  have born : s.stage c ≠ .unborn := fun unborn => by simp [unborn, Stage.isQueued] at queued
  exact ⟨_, List.getElem?_eq_getElem ((wired.born c).1 born)⟩

/-- No two workers hold the same closure. -/
theorem Ledger.apart (ledger : s.Ledger) (wired : s.Wired) (sound : s.workQueue.Sound l)
    {w' : Fin n} (first : (s.worker w).closure = some c)
    (second : (s.worker w').closure = some c) : w = w' := by
  obtain ⟨d, last, value⟩ := ledger.owned w c first
  obtain ⟨e, last', value'⟩ := ledger.owned w' c second
  obtain ⟨member, consumer⟩ := lastTo_mem last
  obtain ⟨member', consumer'⟩ := lastTo_mem last'
  rw [← consumer, ← consumer', delivery_unique wired sound member member' (value.trans value'.symm)]

theorem Ledger.mem_delivered (ledger : s.Ledger) (holds : (s.worker w).closure = some c) :
    c ∈ s.delivered := by
  obtain ⟨d, last, rfl⟩ := ledger.owned w c holds
  exact List.mem_map_of_mem (lastTo_mem last).1

/-! ## Steps -/

/-- Steps that leave the queue, the workers and every life alone. -/
theorem Ledger.of_same (ledger : s.Ledger) (workQueue : t.workQueue = s.workQueue)
    (worker : t.worker = s.worker) (life : ∀ c, t.life c = s.life c)
    (submissions : ∀ (c : Nat) task,
      s.submissions[c]? = some task → t.submissions[c]? = some task) :
    t.Ledger where
  phase := by rw [workQueue, worker]; exact ledger.phase
  owned := by rw [workQueue, worker]; exact ledger.owned
  fits w c holds := by
    rw [worker] at holds ⊢
    rw [life]
    obtain ⟨task, submitted, expects⟩ := ledger.fits w c holds
    exact ⟨task, submissions c task submitted, expects⟩
  held w item d := by rw [workQueue, life]; exact ledger.held w item d
  waiting c := by rw [delivered, workQueue, life]; exact ledger.waiting c
  finished d member idle := by
    rw [workQueue] at member
    rw [life]
    rw [Busy, workQueue, worker] at idle
    obtain ⟨task, value, submitted, settled⟩ := ledger.finished d member idle
    exact ⟨task, value, submissions d.value task submitted, settled⟩

/-- A worker moves on with its closure in its hands, or lets it go settled; no other
closure's life changes. -/
theorem Ledger.move (ledger : s.Ledger) (wired : s.Wired) (sound : s.workQueue.Sound l)
    {place : Worker} (holds : (s.worker w).closure = some c)
    (workQueue : t.workQueue = s.workQueue) (worker : t.worker = Function.update s.worker w place)
    (submissions : t.submissions = s.submissions)
    (others : ∀ d, d ≠ c → t.life d = s.life d)
    (next : place.InPhase .outside)
    (moved : ∀ task, s.submissions[c]? = some task → (s.worker w).Expects c task (s.life c) →
      (place.closure = some c ∧ place.Expects c task (t.life c)) ∨
        (place.closure = none ∧ ∃ value, t.life c = .settled task value)) : t.Ledger := by
  obtain ⟨mine, last, owns⟩ := ledger.owned w c holds
  obtain ⟨member, consumer⟩ := lastTo_mem last
  have outside := Worker.outside_of_closure (ledger.phase w) holds
  obtain ⟨task, submitted, expects⟩ := ledger.fits w c holds
  have fate := moved task submitted expects
  have held : ∀ d, place.closure = some d → d = c := by
    intro d here
    rcases fate with ⟨same, -⟩ | ⟨none_, -⟩
    · rw [here] at same
      exact Option.some.inj same
    · rw [here] at none_
      cases none_
  -- a closure in other hands is another closure
  have apart : ∀ v d, v ≠ w → (s.worker v).closure = some d → d ≠ c := by
    rintro v d ne here rfl
    exact ne (ledger.apart wired sound here holds)
  refine ⟨?phase, ?owned, ?fits, ?held, ?waiting, ?finished⟩
  case phase =>
    intro v
    rw [workQueue, worker]
    by_cases same : v = w
    · subst same
      rw [Function.update_self, outside]
      exact next
    · rw [Function.update_of_ne same]
      exact ledger.phase v
  case owned =>
    intro v d here
    rw [worker] at here
    rw [workQueue]
    by_cases same : v = w
    · subst same
      rw [Function.update_self] at here
      exact ⟨mine, last, owns.trans (held d here).symm⟩
    · rw [Function.update_of_ne same] at here
      exact ledger.owned v d here
  case fits =>
    intro v d here
    rw [worker] at here ⊢
    rw [submissions]
    by_cases same : v = w
    · subst same
      rw [Function.update_self] at here ⊢
      obtain rfl := held d here
      rcases fate with ⟨-, expects⟩ | ⟨none_, -⟩
      · exact ⟨task, submitted, expects⟩
      · rw [here] at none_
        cases none_
    · rw [Function.update_of_ne same] at here ⊢
      rw [others d (apart v d same here)]
      exact ledger.fits v d here
  case held =>
    intro v item d holding lastTo
    rw [workQueue] at holding lastTo
    have ne : d.value ≠ c := by
      intro same
      have one := delivery_unique wired sound (lastTo_mem lastTo).1 member (same.trans owns.symm)
      have here : v = w := by rw [← (lastTo_mem lastTo).2, one, consumer]
      rw [here, outside] at holding
      cases holding
    rw [others _ ne]
    exact ledger.held v item d holding lastTo
  case waiting =>
    intro d waiting
    rw [Pool.delivered, workQueue] at waiting
    have ne : d ≠ c := by
      rintro rfl
      exact waiting (ledger.mem_delivered holds)
    rw [others d ne]
    exact ledger.waiting d waiting
  case finished =>
    intro d delivered idle
    rw [workQueue] at delivered
    rw [submissions]
    by_cases mineIs : d.value = c
    · obtain rfl := delivery_unique wired sound delivered member (mineIs.trans owns.symm)
      rcases fate with ⟨here, -⟩ | ⟨-, value, settled⟩
      · refine absurd (Or.inl ?_) idle
        rw [worker, consumer, Function.update_self, here, owns]
      · rw [owns]
        exact ⟨task, value, submitted, settled⟩
    · rw [others _ mineIs]
      refine ledger.finished d delivered fun busy => idle ?_
      rw [Busy, workQueue, worker]
      rcases busy with here | holding
      · left
        have ne : d.consumer ≠ w := by
          intro same
          rw [same, holds] at here
          exact mineIs (Option.some.inj here).symm
        rw [Function.update_of_ne ne]
        exact here
      · exact Or.inr holding

/-- Steps of the queue that deliver nothing and leave `holding` workers where they
are, with workers that move having nothing in their hands. -/
theorem Ledger.of_phase (ledger : s.Ledger) {workQueue : WorkQueue (Fin n) Addr}
    {worker : Fin n → Worker} (delivered : workQueue.delivered = s.workQueue.delivered)
    (holding : ∀ v item, workQueue.phase v = .holding item ↔ s.workQueue.phase v = .holding item)
    (hands : ∀ v, worker v = s.worker v ∨
      (worker v).closure = none ∧ (s.worker v).closure = none)
    (phase : ∀ v, (worker v).InPhase (workQueue.phase v)) :
    Ledger { s with workQueue := workQueue, worker := worker } := by
  have closure : ∀ v, (worker v).closure = (s.worker v).closure := by
    intro v
    rcases hands v with same | ⟨after, before⟩
    · rw [same]
    · rw [after, before]
  have place : ∀ v d, (worker v).closure = some d → worker v = s.worker v := by
    intro v d here
    refine (hands v).resolve_right ?_
    rintro ⟨none_, _⟩
    rw [here] at none_
    cases none_
  have lastTo : ∀ v, workQueue.lastTo v = s.workQueue.lastTo v := by
    intro v
    simp only [WorkQueue.lastTo, delivered]
  refine ⟨phase, ?owned, ?fits, ?held, ?waiting, ?finished⟩
  case owned =>
    intro v d here
    rw [lastTo]
    exact ledger.owned v d (closure v ▸ here)
  case fits =>
    intro v d here
    obtain ⟨task, submitted, expects⟩ := ledger.fits v d (closure v ▸ here)
    rw [← place v d here] at expects
    exact ⟨task, submitted, expects⟩
  case held =>
    intro v item d here last
    exact ledger.held v item d ((holding v item).1 here) ((lastTo v).symm.trans last)
  case waiting =>
    intro d waiting
    simp only [Pool.delivered, delivered] at waiting
    exact ledger.waiting d waiting
  case finished =>
    intro d member idle
    rw [delivered] at member
    refine ledger.finished d member fun busy => idle ?_
    simpa only [Busy, closure, holding, lastTo] using busy

theorem Ledger.enqueue (ledger : s.Ledger) {item : Addr} {wake : Option (Fin n)}
    (taken : s.Takes (.enqueue i item wake) t) : t.Ledger := by
  cases taken
  rename_i workQueue created taken
  obtain ⟨-, queue, phase, -, signalled, rfl⟩ := WorkQueue.enqueueStep_cases taken
  have queued : Ledger { s with workQueue :=
      { queue := queue, phase := phase
        occurrence := Function.update s.workQueue.occurrence item s.workQueue.enqueued.length
        enqueued := s.workQueue.enqueued ++ [i], delivered := s.workQueue.delivered } } :=
    ledger.of_phase rfl (fun v item => WorkQueue.condSignal_holding signalled)
      (fun _ => Or.inl rfl) fun v => (ledger.phase v).of_woken (condSignal_apply signalled v)
  exact queued.of_same rfl rfl (fun _ => rfl) fun _ _ h => h

/-- A worker in `queue_pop` stays there, holding what it held. -/
theorem Ledger.of_update (ledger : s.Ledger) (popping : s.worker w = .popping) {place : Phase}
    (live : place ≠ .cancelled) (notHolding : ∀ item, s.workQueue.phase w ≠ .holding item)
    (notHolding' : ∀ item, place ≠ .holding item) :
    Ledger { s with workQueue :=
      { s.workQueue with phase := Function.update s.workQueue.phase w place } } := by
  refine ledger.of_phase rfl (?_) (fun _ => Or.inl rfl) ?_
  · intro v item
    by_cases same : v = w
    · subst same
      simp [notHolding, notHolding']
    · simp [same]
  · intro v
    by_cases same : v = w
    · subst same
      simpa [popping, Worker.InPhase] using live
    · simpa [same] using ledger.phase v

/-- The queue delivers a closure: it was untouched, and is in one worker's hands. -/
theorem Ledger.deliver (ledger : s.Ledger) (popping : s.worker w = .popping)
    (notHolding : ∀ item, s.workQueue.phase w ≠ .holding item) {queue : Queue Addr} {item : Addr}
    {c occurrence : Nat} (fresh : c ∉ s.delivered) :
    Ledger { s with workQueue := { s.workQueue with
      queue := queue
      phase := Function.update s.workQueue.phase w (.holding item)
      delivered := s.workQueue.delivered ++ [⟨w, c, occurrence⟩] } } := by
  have lastSame : ∀ v, v ≠ w → WorkQueue.lastTo { s.workQueue with
      queue := queue
      phase := Function.update s.workQueue.phase w (.holding item)
      delivered := s.workQueue.delivered ++ [⟨w, c, occurrence⟩] } v =
        s.workQueue.lastTo v := by
    intro v ne
    simp [WorkQueue.lastTo, Ne.symm ne]
  have lastHere : WorkQueue.lastTo { s.workQueue with
      queue := queue
      phase := Function.update s.workQueue.phase w (.holding item)
      delivered := s.workQueue.delivered ++ [⟨w, c, occurrence⟩] } w = some ⟨w, c, occurrence⟩ := by
    simp [WorkQueue.lastTo]
  refine ⟨?phase, ?owned, ledger.fits, ?held, ?waiting, ?finished⟩
  case phase =>
    intro v
    by_cases same : v = w
    · subst same
      simp [popping, Worker.InPhase]
    · simpa [same] using ledger.phase v
  case owned =>
    intro v d here
    have ne : v ≠ w := by
      rintro rfl
      simp [popping, Worker.closure] at here
    rw [lastSame v ne]
    exact ledger.owned v d here
  case held =>
    intro v a d holding last
    by_cases same : v = w
    · subst same
      rw [lastHere, Option.some.injEq] at last
      rw [← last]
      exact ledger.waiting c fresh
    · rw [lastSame v same] at last
      exact ledger.held v a d (by simpa [same] using holding) last
  case waiting =>
    intro d waiting
    refine ledger.waiting d fun before => waiting ?_
    simp only [Pool.delivered, List.map_append] at before ⊢
    exact List.mem_append_left _ before
  case finished =>
    intro d member idle
    rcases List.mem_append.1 member with before | here
    · refine ledger.finished d before fun busy => idle ?_
      have ne : d.consumer ≠ w := by
        rintro same
        rcases busy with here | ⟨⟨a, holding⟩, -⟩
        · simp [same, popping, Worker.closure] at here
        · exact notHolding a (same ▸ holding)
      rcases busy with here | ⟨⟨a, holding⟩, last⟩
      · exact Or.inl here
      · exact Or.inr ⟨⟨a, by simpa [ne] using holding⟩, by rw [lastSame _ ne]; exact last⟩
    · obtain rfl := List.mem_singleton.1 here
      exact absurd (Or.inr ⟨⟨item, by simp⟩, lastHere⟩) idle

theorem testing_notHolding {phase : Phase} (testing : phase.testing = true) (item : Addr) :
    phase ≠ .holding item := by
  rintro rfl
  cases testing

theorem Ledger.pop (ledger : s.Ledger) (wired : s.Wired) (sound : s.workQueue.Sound l)
    {workQueue : WorkQueue (Fin n) Addr} (popping : s.worker w = .popping)
    (taken : s.workQueue.popStep w = some workQueue) :
    Ledger { s with workQueue := workQueue } := by
  have onward := sound.popStep taken
  obtain ⟨testing, ⟨-, rfl⟩ | ⟨item, queue, record, -, present, rfl⟩⟩ :=
    WorkQueue.popStep_cases taken
  · exact ledger.of_update popping (by simp) (testing_notHolding testing) (by simp)
  · apply ledger.deliver popping (testing_notHolding testing)
    intro again
    -- a closure already delivered would be delivered twice
    obtain ⟨-, ⟨-, -, same, -⟩ | ⟨_, rest, -, -, -, sound', -⟩⟩ := onward
    · simp at same
    · have values := (sound'.delivered_sublist.map Prod.fst)
      rw [List.map_map, List.zipIdx_map_fst] at values
      have nodup := wired.once.sublist values
      simp only [List.map_append, List.map_cons, List.map_nil, List.nodup_append] at nodup
      exact nodup.2.2 _ again _ (by simp [Delivery.entry]) rfl

/-- The worker comes back from `queue_pop` with what it was holding. -/
theorem Ledger.return (ledger : s.Ledger) (wired : s.Wired) (sound : s.workQueue.Sound l)
    {workQueue : WorkQueue (Fin n) Addr} (popping : s.worker w = .popping)
    (taken : s.workQueue.returnStep w = some (c, workQueue)) :
    Ledger ({ s with workQueue := workQueue }.moveWorker w (.fetched c)) := by
  obtain ⟨item, record, holding, present, same⟩ := WorkQueue.returnStep_cases taken
  obtain ⟨-, -, record', present', last⟩ := sound.held w item holding
  rw [present, Option.some.injEq] at present'
  subst present'
  cases same
  obtain ⟨member, -⟩ := lastTo_mem last
  obtain ⟨task, submitted⟩ := delivered_born wired sound (List.mem_map_of_mem member)
  refine ⟨?phase, ?owned, ?fits, ?held, ledger.waiting, ?finished⟩
  case phase =>
    intro v
    by_cases same : v = w
    · subst same
      simp [moveWorker, Worker.InPhase]
    · simpa [moveWorker, same] using ledger.phase v
  case owned =>
    intro v d here
    by_cases same : v = w
    · subst same
      obtain rfl : record.value = d := by simpa [moveWorker, Worker.closure] using here
      exact ⟨_, last, rfl⟩
    · exact ledger.owned v d (by simpa [moveWorker, same] using here)
  case fits =>
    intro v d here
    by_cases same : v = w
    · subst same
      obtain rfl : record.value = d := by simpa [moveWorker, Worker.closure] using here
      refine ⟨task, submitted, ?_⟩
      simp only [moveWorker, Function.update_self, Worker.Expects]
      exact ledger.held v item _ holding last
    · simp only [moveWorker, Function.update_of_ne same] at here ⊢
      exact ledger.fits v d here
  case held =>
    intro v a d holds lastTo
    by_cases same : v = w
    · simp [moveWorker, same] at holds
    · exact ledger.held v a d (by simpa [moveWorker, same] using holds) lastTo
  case finished =>
    intro d delivered idle
    refine ledger.finished d delivered fun busy => idle ?_
    by_cases same : d.consumer = w
    · left
      rcases busy with here | ⟨-, last'⟩
      · simp [same, popping, Worker.closure] at here
      · rw [same, last, Option.some.injEq] at last'
        simp [moveWorker, Worker.closure, ← last']
    · simp only [Busy, moveWorker, Function.update_of_ne same]
      exact busy

theorem life_of_record {d : Addr} (calls : t.callsOf d = s.callsOf d)
    (results : t.resultsOf d = s.resultsOf d)
    (outcomes : (t.futures d).outcomes = (s.futures d).outcomes) : t.life d = s.life d := by
  rw [life, life, calls, results, outcomes]

theorem update_outcomes {futures : Addr → SharedFuture (CallbackFn U)} {f : Addr}
    {future : SharedFuture (CallbackFn U)} {a : FutureAction (CallbackFn U)}
    (taken : (futures f).step a = some future) (notSettle : ∀ o, a ≠ .settle o) (d : Addr) :
    (Function.update futures f future d).outcomes = (futures d).outcomes := by
  by_cases same : d = f
  · subst same
    simpa using SharedFuture.step_outcomes taken notSettle
  · simp [same]

theorem Ledger.call (ledger : s.Ledger) (wired : s.Wired) (sound : s.workQueue.Sound l)
    {closure : Closure F} (place : s.worker w = .fetched c)
    (present : s.closures c = some closure) : Ledger (moveWorker { s with
      calls := s.calls ++ [⟨c, closure.fn, closure.args⟩] } w (.running c)) := by
  refine ledger.move wired sound (c := c) (by simp [place, Worker.closure]) rfl rfl rfl
    (?_) rfl fun task submitted expects => Or.inl ⟨rfl, ?_⟩
  · intro d ne
    exact life_of_record (by simp [callsOf, moveWorker, Ne.symm ne]) rfl rfl
  · rw [place] at expects
    have fresh : s.life c = .untouched := expects
    obtain ⟨-, recorded⟩ := wired.closure c closure present
    rw [submitted, Option.some.injEq] at recorded
    simp only [life, Life.untouched, Life.mk.injEq] at fresh
    simp only [Worker.Expects, Life.called, life, Life.mk.injEq]
    refine ⟨?_, fresh.2⟩
    have before := fresh.1
    simp only [callsOf] at before
    simp [callsOf, moveWorker, before, recorded]

theorem Ledger.ret (ledger : s.Ledger) (wired : s.Wired) (sound : s.workQueue.Sound l)
    {value : Ptr} (place : s.worker w = .running c) :
    Ledger (moveWorker { s with results := s.results ++ [(c, value)] } w (.ran c value)) := by
  refine ledger.move wired sound (c := c) (by simp [place, Worker.closure]) rfl rfl rfl
    (?_) rfl fun task submitted expects => Or.inl ⟨rfl, ?_⟩
  · intro d ne
    exact life_of_record rfl (by simp [resultsOf, moveWorker, Ne.symm ne]) rfl
  · rw [place] at expects
    have called : s.life c = .called task := expects
    simp only [life, Life.called, Life.mk.injEq] at called
    simp only [Worker.Expects, Life.answered, life, Life.mk.injEq]
    refine ⟨called.1, ?_, called.2.2⟩
    have before := called.2.1
    simp only [resultsOf] at before
    simp [resultsOf, moveWorker, before]

theorem Ledger.fulfill (ledger : s.Ledger) (wired : s.Wired) (sound : s.workQueue.Sound l)
    {value : Ptr} {closure : Closure F} {promise : Promise} (place : s.worker w = .ran c value)
    (present : s.closures c = some closure) (linked : s.promises closure.promise = some promise) :
    Ledger (s.moveWorker w (.fulfilling c promise.future value)) := by
  refine ledger.move wired sound (c := c) (by simp [place, Worker.closure]) rfl rfl rfl
    (fun d _ => rfl) rfl fun task submitted expects => Or.inl ⟨rfl, ?_⟩
  rw [place] at expects
  refine ⟨?_, expects⟩
  rw [wired.promise _ _ linked, (wired.closure c closure present).1]

theorem Ledger.settle (ledger : s.Ledger) (wired : s.Wired) (sound : s.workQueue.Sound l)
    {f : Addr} {value : Ptr} {future : SharedFuture (CallbackFn U)}
    (place : s.worker w = .fulfilling c f value)
    (taken : (s.futures f).step (.settle (.fulfill value)) = some future) :
    Ledger (moveWorker { s with
      futures := Function.update s.futures f future
      aborted := future.aborted } w (.settling c f (s.futures f).outcomes.length)) := by
  obtain rfl := SharedFuture.step_settle taken
  have holds : (s.worker w).closure = some c := by simp [place, Worker.closure]
  -- the promise in the closure leads to the closure's own future
  obtain rfl : f = c := by
    obtain ⟨task, -, expects⟩ := ledger.fits w c holds
    rw [place] at expects
    exact expects.1
  refine ledger.move wired sound holds rfl rfl rfl (?_) rfl
    fun task submitted expects => Or.inl ⟨rfl, ?_⟩
  · intro d ne
    exact life_of_record rfl rfl (by simp [moveWorker, ne])
  · rw [place] at expects
    have answered : s.life f = .answered task value := expects.2
    simp only [life, Life.answered, Life.mk.injEq] at answered
    obtain ⟨calls, results, outcomes⟩ := answered
    refine ⟨rfl, by simp [outcomes], value, ?_⟩
    simp only [life, Life.settled, Life.mk.injEq]
    exact ⟨calls, results, by simp [moveWorker, SharedFuture.settleStep, outcomes]⟩

theorem Ledger.walk (ledger : s.Ledger) (wired : s.Wired) (sound : s.workQueue.Sound l)
    {step : WalkStep} (taken : s.Takes (.work w (.walk step)) t) : t.Ledger := by
  have lives : ∀ d, t.life d = s.life d := by
    intro d
    cases taken with
    | walk _ taken => exact life_of_record rfl rfl (update_outcomes taken (fun _ => by simp) d)
  cases taken
  rename_i c f k future place taken
  by_cases last : step = .finish
  · refine ledger.move wired sound (c := c) (by simp [place, Worker.closure]) rfl (if_pos last)
      rfl (fun d _ => lives d) rfl fun task submitted expects => Or.inl ⟨rfl, ?_⟩
    rw [place] at expects
    rw [lives]
    exact expects.2.2
  · exact ledger.of_same rfl (if_neg last) lives fun _ _ h => h

theorem Ledger.free (ledger : s.Ledger) (wired : s.Wired) (sound : s.workQueue.Sound l)
    (place : s.worker w = .releasing c) :
    Ledger (moveWorker { s with closures := s.closures.free c } w .popping) := by
  refine ledger.move wired sound (c := c) (by simp [place, Worker.closure]) rfl rfl rfl
    (fun d _ => rfl) (by simp [Worker.InPhase]) fun task submitted expects => Or.inr ⟨rfl, ?_⟩
  rw [place] at expects
  exact expects

/-- A worker that goes in the wait goes with nothing in its hands. -/
theorem Ledger.endWait (ledger : s.Ledger) (popping : s.worker w = .popping)
    {heir : Option (Fin n)} {workQueue : WorkQueue (Fin n) Addr}
    (taken : s.workQueue.cancelStep w heir = some workQueue) (woken : Bool) :
    Ledger ({ s with workQueue := workQueue }.endWorker w (.waiting woken)) := by
  obtain ⟨-, delivered, cancelled, notHolding, others⟩ := WorkQueue.cancelStep_phase taken
  have moved : Ledger { s with
      workQueue := workQueue
      worker := Function.update s.worker w (.terminated (.waiting woken)) } := by
    refine ledger.of_phase delivered (?_) (?_) ?_
    · intro v item
      by_cases same : v = w
      · subst same
        simp [cancelled, notHolding]
      · rcases others v same with kept | ⟨asleep, signalled⟩
        · rw [kept]
        · simp [asleep, signalled]
    · intro v
      by_cases same : v = w
      · subst same
        exact Or.inr ⟨by simp [Worker.closure], by simp [popping, Worker.closure]⟩
      · exact Or.inl (Function.update_of_ne same ..)
    · intro v
      by_cases same : v = w
      · subst same
        simp [Worker.InPhase, cancelled]
      · rw [Function.update_of_ne same]
        exact (ledger.phase v).of_woken (others v same)
  exact moved.of_same rfl rfl (fun _ => rfl) fun _ _ h => h

theorem Ledger.cancelled (ledger : s.Ledger) (wired : s.Wired) (sound : s.workQueue.Sound l)
    {a : CancelAction n} (taken : s.Takes (.cancelled w a) t) : t.Ledger := by
  cases taken with
  | cancelledWait _ popping taken => exact ledger.endWait popping taken _
  | @cancelledTask _ c _ place =>
      refine ledger.move wired sound (c := c) (by simp [place, Worker.closure]) rfl rfl rfl
        (fun d _ => rfl) rfl fun task submitted expects => Or.inl ⟨rfl, ?_⟩
      rw [place] at expects
      exact expects
  | @cancelledCallback _ c f k _ place =>
      refine ledger.move wired sound (c := c) (by simp [place, Worker.closure]) rfl rfl rfl
        (fun d _ => rfl) rfl fun task submitted expects => Or.inl ⟨rfl, ?_⟩
      rw [place] at expects
      exact expects.2.2

theorem Ledger.step (ledger : s.Ledger) (wired : s.Wired) (sound : s.workQueue.Sound l)
    {a : PoolAction n F U} (stepped : s.step a = some t) : t.Ledger := by
  cases step_takes stepped with
  | execute =>
      refine ledger.of_same rfl rfl (fun _ => rfl) ?_
      intro c task submitted
      have early : c < s.submissions.length := (List.getElem?_eq_some_iff.1 submitted).1
      simpa [setStage, List.getElem?_append_left early] using submitted
  | enqueue => exact ledger.enqueue (step_takes stepped)
  | addCleanup _ taken =>
      refine ledger.of_same rfl rfl (fun d => life_of_record rfl rfl ?_) fun _ _ h => h
      exact update_outcomes taken (fun _ => by simp) d
  | @client _ a _ _ taken =>
      refine ledger.of_same rfl rfl (fun d => life_of_record rfl rfl ?_) fun _ _ h => h
      exact update_outcomes taken (fun _ => by cases a <;> simp [ClientAction.onFuture]) d
  | pop popping taken => exact ledger.pop wired sound popping taken
  | «return» popping taken => exact ledger.return wired sound popping taken
  | spurious popping taken =>
      obtain ⟨asleep, rfl⟩ := WorkQueue.spuriousStep_cases taken
      exact ledger.of_update popping (by simp) (by simp [asleep]) (by simp)
  | call place present => exact ledger.call wired sound place present
  | ret place => exact ledger.ret wired sound place
  | fulfill place present linked => exact ledger.fulfill wired sound place present linked
  | settle place taken => exact ledger.settle wired sound place taken
  | walk => exact ledger.walk wired sound (step_takes stepped)
  | free place => exact ledger.free wired sound place
  | cancelledWait | cancelledTask | cancelledCallback =>
      exact ledger.cancelled wired sound (step_takes stepped)
  | _ => exact ledger.of_same rfl rfl (fun _ => rfl) fun _ _ h => h

theorem run_ledger (run : (machine n F U).Run past s) : s.Ledger := by
  induction run with
  | none => exact start_ledger
  | step before stepped ih =>
      obtain ⟨l, sound⟩ := WorkQueue.run_sound (run_queue before)
      exact ih.step (run_wired before) sound stepped

end Pool

end Cfutures
