/-
# Selftest.Queue -- the self test of the queue

`queue_test` starts one thread that enqueues the numbers from 0 on, pops as many itself,
and asserts that they come in order.  The machine here is that program: the thread of
`test_queue_thread`, the loop of `queue_test`, and the queue between them, in any
interleaving.  The number of rounds is a parameter; the source has `rounds`.

* `run_counts`: what the two loop counters say of the queue's record;
* `spends`: apart from spurious wake-ups every step brings the test nearer to its end;
* `passes_iff`: where it ends it has passed exactly if no enqueue found the list adrift;
  otherwise its assertion has failed, or `queue_test` sleeps in `queue_pop` for ever.
-/
import Cfutures.Queue.Cancellation
import Cfutures.Queue.Delivery
import Cfutures.Queue.Wakeup
import Cfutures.Theory.Progress

namespace Cfutures

open Cfutures.Theory

set_option autoImplicit false

/-- `queue_test` and the thread it starts. -/
structure QueueTest where
  workQueue : WorkQueue Unit Nat
  /-- `i` of `test_queue_thread`: the number it enqueues next. -/
  sent : Nat
  /-- `i` of `queue_test`: the number it wants next. -/
  wanted : Nat
  /-- `assert (v == i)` has failed. -/
  failed : Bool

inductive QueueTestAction where
  | enqueue (item : Addr) (wake : Option Unit)
  | pop
  | return
  | spurious
  deriving DecidableEq

/-- The items a consumer in this phase has in hand. -/
def Phase.inHand : Phase → Nat
  | .holding _ => 1
  | _ => 0

theorem Phase.inHand_of_testing {phase : Phase} (testing : phase.testing = true) :
    phase.inHand = 0 := by
  cases phase with
  | outside | woken signalled => rfl
  | _ => cases testing

theorem condSignal_inHand {phase phase' : Unit → Phase} {wake : Option Unit}
    (signalled : condSignal phase wake = some phase') : (phase' ()).inHand = (phase ()).inHand := by
  rcases condSignal_apply signalled () with same | ⟨asleep, woken⟩
  · rw [same]
  · rw [woken, asleep]
    rfl

namespace QueueTest

/-- `i < 10`, in both loops. -/
def rounds : Nat := 10

def start : QueueTest where
  workQueue := WorkQueue.start
  sent := 0
  wanted := 0
  failed := false

/-- A turn of the loop of `test_queue_thread`. -/
def enqueueStep (bound : Nat) (s : QueueTest) (item : Addr) (wake : Option Unit) :
    Option QueueTest :=
  if s.sent < bound then
    (s.workQueue.enqueueStep item s.sent wake).map fun workQueue =>
      { s with workQueue := workQueue, sent := s.sent + 1 }
  else none

/-- The call of `queue_pop` in a turn of the loop of `queue_test`. -/
def popStep (bound : Nat) (s : QueueTest) : Option QueueTest :=
  if s.wanted < bound then
    (s.workQueue.popStep ()).map fun workQueue => { s with workQueue := workQueue }
  else none

/-- `queue_pop` returns, and `assert (v == i)`. -/
def returnStep (s : QueueTest) : Option QueueTest :=
  (s.workQueue.returnStep ()).map fun returned =>
    if returned.1 = s.wanted then { s with workQueue := returned.2, wanted := s.wanted + 1 }
    else { s with workQueue := returned.2, failed := true }

def spuriousStep (s : QueueTest) : Option QueueTest :=
  (s.workQueue.spuriousStep ()).map fun workQueue => { s with workQueue := workQueue }

/-- A failed assertion ends the program. -/
def step (bound : Nat) (s : QueueTest) (a : QueueTestAction) : Option QueueTest :=
  if s.failed then none
  else match a with
    | .enqueue item wake => s.enqueueStep bound item wake
    | .pop => s.popStep bound
    | .return => s.returnStep
    | .spurious => s.spuriousStep

def machine (bound : Nat) : Machine QueueTest QueueTestAction where
  start := start
  step := step bound

/-- `queue_test` has printed its OK. -/
def Passed (bound : Nat) (s : QueueTest) : Prop := s.failed = false ∧ s.wanted = bound

/-- A step that the program takes by itself. -/
def own : QueueTestAction → Bool
  | .spurious => false
  | _ => true

/-- The step of the queue in a step of the test. -/
def queueAction (s : QueueTest) : QueueTestAction → QueueAction Unit Nat
  | .enqueue item wake => .enqueue item s.sent wake
  | .pop => .pop ()
  | .return => .return ()
  | .spurious => .spurious ()

/-- The step is an enqueue that finds `head` set and `tail` NULL. -/
def severs (s : QueueTest) (a : QueueTestAction) : Bool := s.workQueue.severs (s.queueAction a)

variable {bound : Nat} {s t : QueueTest} {past more : List (QueueTest × QueueTestAction)}

/-! ## What a step can do -/

theorem step_cases {a : QueueTestAction} (stepped : step bound s a = some t) :
    s.failed = false ∧
      ((∃ item wake workQueue, a = .enqueue item wake ∧ s.sent < bound ∧
          s.workQueue.enqueueStep item s.sent wake = some workQueue ∧
          t = { s with workQueue := workQueue, sent := s.sent + 1 }) ∨
        (∃ workQueue, a = .pop ∧ s.wanted < bound ∧ s.workQueue.popStep () = some workQueue ∧
          t = { s with workQueue := workQueue }) ∨
        (∃ value workQueue, a = .return ∧
          s.workQueue.returnStep () = some (value, workQueue) ∧
          t = if value = s.wanted then { s with workQueue := workQueue, wanted := s.wanted + 1 }
            else { s with workQueue := workQueue, failed := true }) ∨
        ∃ workQueue, a = .spurious ∧ s.workQueue.spuriousStep () = some workQueue ∧
          t = { s with workQueue := workQueue }) := by
  simp only [step, Option.ite_none_left_eq_some, Bool.not_eq_true] at stepped
  obtain ⟨going, stepped⟩ := stepped
  refine ⟨going, ?_⟩
  cases a with
  | enqueue item wake =>
      simp only [enqueueStep, Option.ite_none_right_eq_some, Option.map_eq_some_iff] at stepped
      obtain ⟨more, workQueue, taken, rfl⟩ := stepped
      exact Or.inl ⟨item, wake, workQueue, rfl, more, taken, rfl⟩
  | pop =>
      simp only [popStep, Option.ite_none_right_eq_some, Option.map_eq_some_iff] at stepped
      obtain ⟨more, workQueue, taken, rfl⟩ := stepped
      exact Or.inr (Or.inl ⟨workQueue, rfl, more, taken, rfl⟩)
  | «return» =>
      obtain ⟨⟨value, workQueue⟩, taken, rfl⟩ := Option.map_eq_some_iff.1 stepped
      exact Or.inr (Or.inr (Or.inl ⟨value, workQueue, rfl, taken, rfl⟩))
  | spurious =>
      obtain ⟨workQueue, taken, rfl⟩ := Option.map_eq_some_iff.1 stepped
      exact Or.inr (Or.inr (Or.inr ⟨workQueue, rfl, taken, rfl⟩))

theorem projects : Machine.Projects (machine bound) (WorkQueue.machine Unit Nat)
    QueueTest.workQueue fun s a => some (s.queueAction a) := by
  intro s a t stepped
  change s.workQueue.step (s.queueAction a) = some t.workQueue
  obtain ⟨-, ⟨item, wake, workQueue, rfl, -, taken, rfl⟩ | ⟨workQueue, rfl, -, taken, rfl⟩ |
    ⟨value, workQueue, rfl, taken, rfl⟩ | ⟨workQueue, rfl, taken, rfl⟩⟩ := step_cases stepped
  · exact taken
  · exact taken
  · refine (Option.map_eq_some_iff.2 ⟨_, taken, ?_⟩)
    split <;> rfl
  · exact taken

/-- The run of the queue in a run of the test. -/
def queuePast (past : List (QueueTest × QueueTestAction)) :
    List (WorkQueue Unit Nat × QueueAction Unit Nat) :=
  Machine.projectPast QueueTest.workQueue (fun s a => some (s.queueAction a)) past

theorem run_queue (run : (machine bound).Run past s) :
    (WorkQueue.machine Unit Nat).Run (queuePast past) s.workQueue :=
  Machine.Run.project (π := QueueTest.workQueue) rfl projects run

theorem severs_queuePast :
    (∀ e ∈ queuePast past, e.1.severs e.2 = false) ↔ ∀ e ∈ past, e.1.severs e.2 = false := by
  constructor
  · intro whole e recorded
    exact whole (e.1.workQueue, e.1.queueAction e.2)
      ((Machine.mem_projectPast ..).2 ⟨e, recorded, rfl, rfl⟩)
  · intro whole e recorded
    obtain ⟨d, member, named, here⟩ := (Machine.mem_projectPast ..).1 recorded
    rw [← here, ← Option.some.inj named]
    exact whole d member

/-! ## The counters -/

/-- The items that `queue_test` has unlinked and not compared. -/
def pending (s : QueueTest) : Nat := (s.workQueue.phase ()).inHand

structure Counts (bound : Nat) (s : QueueTest) : Prop where
  enqueued : s.workQueue.enqueued = List.range s.sent
  sent_le : s.sent ≤ bound
  delivered : s.failed = false → s.workQueue.delivered.length = s.wanted + s.pending
  within : s.failed = false → s.wanted + s.pending ≤ bound
  present : s.workQueue.phase () ≠ .cancelled

theorem start_counts : Counts bound start where
  enqueued := rfl
  sent_le := Nat.zero_le _
  delivered _ := rfl
  within _ := Nat.zero_le _
  present := by simp [start, WorkQueue.start]

theorem Counts.enqueue (counts : Counts bound s) {item : Addr} {wake : Option Unit}
    {workQueue : WorkQueue Unit Nat} (more : s.sent < bound)
    (taken : s.workQueue.enqueueStep item s.sent wake = some workQueue) :
    Counts bound { s with workQueue := workQueue, sent := s.sent + 1 } := by
  obtain ⟨-, queue, phase, -, signalled, rfl⟩ := WorkQueue.enqueueStep_cases taken
  have same := condSignal_inHand signalled
  refine ⟨?_, more, ?_, ?_, ?_⟩
  · rw [List.range_succ, ← counts.enqueued]
  · intro going
    simpa [pending, same] using counts.delivered going
  · intro going
    simpa [pending, same] using counts.within going
  · rcases condSignal_apply signalled () with same | ⟨-, woken⟩
    · simpa [same] using counts.present
    · simp [woken]

theorem Counts.pop (counts : Counts bound s) {workQueue : WorkQueue Unit Nat}
    (more : s.wanted < bound) (taken : s.workQueue.popStep () = some workQueue) :
    Counts bound { s with workQueue := workQueue } := by
  obtain ⟨testing, stepped⟩ := WorkQueue.popStep_cases taken
  have none_ : s.pending = 0 := Phase.inHand_of_testing testing
  have delivered := counts.delivered
  rw [none_] at delivered
  obtain ⟨-, rfl⟩ | ⟨item, queue, record, -, -, rfl⟩ := stepped
  · refine ⟨counts.enqueued, counts.sent_le, ?_, ?_, by simp⟩
    · intro going
      simpa [pending, Phase.inHand] using delivered going
    · intro _
      simpa [pending, Phase.inHand] using more.le
  · refine ⟨counts.enqueued, counts.sent_le, ?_, ?_, by simp⟩
    · intro going
      simpa [pending, Phase.inHand] using delivered going
    · intro _
      simpa [pending, Phase.inHand] using Nat.succ_le_of_lt more

theorem Counts.return (counts : Counts bound s) (going : s.failed = false) {value : Nat}
    {workQueue : WorkQueue Unit Nat}
    (taken : s.workQueue.returnStep () = some (value, workQueue)) :
    Counts bound (if value = s.wanted then
        { s with workQueue := workQueue, wanted := s.wanted + 1 }
      else { s with workQueue := workQueue, failed := true }) := by
  obtain ⟨item, record, holding, -, returned⟩ := WorkQueue.returnStep_cases taken
  obtain ⟨-, rfl⟩ := Prod.mk.inj returned
  have one : s.pending = 1 := by simp [pending, holding, Phase.inHand]
  have delivered := counts.delivered going
  have within := counts.within going
  rw [one] at delivered within
  split
  · exact ⟨counts.enqueued, counts.sent_le,
      fun _ => by simpa [pending, Phase.inHand] using delivered,
      fun _ => by simpa [pending, Phase.inHand] using within, by simp⟩
  · exact ⟨counts.enqueued, counts.sent_le, by simp, by simp, by simp⟩

theorem Counts.spurious (counts : Counts bound s) {workQueue : WorkQueue Unit Nat}
    (taken : s.workQueue.spuriousStep () = some workQueue) :
    Counts bound { s with workQueue := workQueue } := by
  obtain ⟨asleep, rfl⟩ := WorkQueue.spuriousStep_cases taken
  have none_ : s.pending = 0 := by simp [pending, asleep, Phase.inHand]
  have delivered := counts.delivered
  have within := counts.within
  rw [none_] at delivered within
  refine ⟨counts.enqueued, counts.sent_le, ?_, ?_, by simp⟩
  · intro going
    simpa [pending, Phase.inHand] using delivered going
  · intro going
    simpa [pending, Phase.inHand] using within going

theorem run_counts (run : (machine bound).Run past s) : Counts bound s := by
  refine Machine.Run.invariant start_counts ?_ run
  intro s a t counts stepped
  obtain ⟨going, ⟨item, wake, workQueue, -, more, taken, rfl⟩ | ⟨workQueue, -, more, taken, rfl⟩ |
    ⟨value, workQueue, -, taken, rfl⟩ | ⟨workQueue, -, taken, rfl⟩⟩ := step_cases stepped
  · exact counts.enqueue more taken
  · exact counts.pop more taken
  · exact counts.return going taken
  · exact counts.spurious taken

/-! ## The end of the test -/

/-- What is left to do: four for each number to come, two for each on its way, and where
`queue_test` is in its turn. -/
def potential (bound : Nat) (s : QueueTest) : Nat :=
  4 * (bound - s.sent) + 2 * (s.sent - s.workQueue.delivered.length) +
    match s.workQueue.phase () with
    | .outside | .woken _ => 1
    | .holding _ => 2
    | .asleep | .cancelled => 0

/-- **Every step but a spurious wake-up brings the test nearer to its end.** -/
theorem spends (bound : Nat) :
    (machine bound).Spends (fun s => ∃ past, (machine bound).Run past s)
      (fun a => own a = true) (potential bound) := by
  rintro s a t ⟨past, run⟩ isOwn stepped
  have onward := run.step stepped
  refine ⟨⟨_, onward⟩, ?_⟩
  obtain ⟨-, ⟨item, wake, workQueue, rfl, more, taken, rfl⟩ | ⟨workQueue, rfl, more, taken, rfl⟩ |
    ⟨value, workQueue, rfl, taken, rfl⟩ | ⟨workQueue, rfl, taken, rfl⟩⟩ := step_cases stepped
  · obtain ⟨-, queue, phase, -, signalled, rfl⟩ := WorkQueue.enqueueStep_cases taken
    rcases condSignal_apply signalled () with same | ⟨asleep, woken⟩
    · simp only [potential, same]
      omega
    · simp only [potential, asleep, woken]
      omega
  · obtain ⟨testing, ⟨-, rfl⟩ | ⟨item, queue, record, -, -, rfl⟩⟩ := WorkQueue.popStep_cases taken
    · cases place : s.workQueue.phase () <;> simp_all [potential, Phase.testing]
    · have counts := run_counts onward
      obtain ⟨l, sound⟩ := WorkQueue.run_sound (run_queue onward)
      have account := sound.account
      rw [counts.enqueued] at account
      simp only [List.length_append, List.length_singleton, List.length_range] at account
      have before : s.potential bound = 4 * (bound - s.sent) +
          2 * (s.sent - s.workQueue.delivered.length) + 1 := by
        cases place : s.workQueue.phase () <;> simp_all [potential, Phase.testing]
      rw [before]
      simp only [potential, Function.update_self, List.length_append, List.length_singleton]
      omega
  · obtain ⟨item, record, holding, -, returned⟩ := WorkQueue.returnStep_cases taken
    obtain ⟨-, rfl⟩ := Prod.mk.inj returned
    split <;> simp [potential, holding]
  · cases isOwn

/-- The numbers delivered, when none has been lost. -/
theorem delivered_of_even {l : List Addr} (sound : s.workQueue.Sound l)
    (even : s.workQueue.deficit l = 0) (enqueued : s.workQueue.enqueued = List.range s.sent) :
    s.workQueue.delivered.map Delivery.value = List.range s.workQueue.delivered.length := by
  have account := sound.account
  have whole : s.workQueue.delivered.map Delivery.entry ++ s.workQueue.entries l =
      s.workQueue.enqueued.zipIdx := by
    refine sound.order.eq_of_length ?_
    rw [WorkQueue.deficit] at even
    simp only [List.length_append, List.length_map, sound.entries_length, List.length_zipIdx]
    omega
  have values := congrArg (List.map Prod.fst) whole
  rw [List.map_append, List.map_map, List.zipIdx_map_fst, enqueued] at values
  have first := congrArg (List.take s.workQueue.delivered.length) values
  rw [enqueued, List.length_range] at account
  rw [List.take_left' (by simp), List.take_range, Nat.min_eq_left (by omega)] at first
  exact first

/-- A number that is out of turn was enqueued after one that is lost. -/
theorem not_failed (run : (machine bound).Run past s)
    (whole : ∀ e ∈ past, e.1.severs e.2 = false) : s.failed = false := by
  induction run with
  | none => rfl
  | @step past s a t before stepped ih =>
      have earlier : ∀ e ∈ past, e.1.severs e.2 = false :=
        fun e recorded => whole e (List.mem_append_left _ recorded)
      have going := ih earlier
      obtain ⟨-, ⟨item, wake, workQueue, -, -, -, rfl⟩ | ⟨workQueue, -, -, -, rfl⟩ |
        ⟨value, workQueue, -, taken, rfl⟩ | ⟨workQueue, -, -, rfl⟩⟩ := step_cases stepped
      · exact going
      · exact going
      · -- the value in hand is the latest delivered
        have counts := run_counts before
        obtain ⟨l, sound, even, -⟩ := WorkQueue.run_deficit (run_queue before)
        have values := delivered_of_even sound (even.2 (severs_queuePast.2 earlier))
          counts.enqueued
        obtain ⟨item, record, holding, present, returned⟩ := WorkQueue.returnStep_cases taken
        obtain ⟨-, -, record', present', last⟩ := sound.held () item holding
        rw [present, Option.some.injEq] at present'
        subst present'
        have one : s.pending = 1 := by simp [pending, holding, Phase.inHand]
        have size := counts.delivered going
        rw [one] at size
        have wanted : value = s.wanted := by
          obtain ⟨rfl, -⟩ := Prod.mk.inj returned
          simp only [WorkQueue.lastTo, decide_true, List.filter_true] at last
          have final := congrArg List.getLast? values
          rw [List.getLast?_map, last, size, List.range_succ, List.getLast?_concat] at final
          simpa using final
        rw [if_pos wanted]
        exact going
      · exact going

/-- Where the test has ended and nothing has failed, all numbers are sent; `queue_test` is
through or asleep, and asleep there is nothing on the list. -/
theorem at_end (run : (machine bound).Run past s) (going : s.failed = false)
    (halted : (machine bound).Stuck (fun a => own a = true) s) :
    s.sent = bound ∧ (s.wanted = bound ∨ (s.wanted < bound ∧
      s.workQueue.phase () = .asleep ∧ ∃ l, s.workQueue.Sound l ∧ l = [])) := by
  have counts := run_counts run
  have queue := run_queue run
  have sent : s.sent = bound := by
    by_contra short
    have more : s.sent < bound := Nat.lt_of_le_of_ne counts.sent_le short
    obtain ⟨item, wake, t, taken⟩ := WorkQueue.exists_enqueue queue s.sent
    have blocked := halted (.enqueue item wake) rfl
    simp [machine, step, going, enqueueStep, more, taken] at blocked
  refine ⟨sent, ?_⟩
  by_contra neither
  obtain ⟨unfinished, awake⟩ := not_or.1 neither
  have more : s.wanted < bound :=
    Nat.lt_of_le_of_ne ((Nat.le_add_right _ _).trans (counts.within going)) unfinished
  obtain ⟨l, sound, covered⟩ := WorkQueue.run_covered queue
  have notTesting : (s.workQueue.phase ()).testing ≠ true := by
    intro testing
    obtain ⟨t, taken⟩ := WorkQueue.exists_pop queue testing
    have blocked := halted .pop rfl
    simp [machine, step, going, popStep, more, taken] at blocked
  cases place : s.workQueue.phase () with
  | outside => simp [place, Phase.testing] at notTesting
  | woken signalled => simp [place, Phase.testing] at notTesting
  | cancelled => exact counts.present place
  | holding item =>
      obtain ⟨-, -, record, present, -⟩ := sound.held () item place
      have blocked := halted .return rfl
      simp only [machine, step, going, returnStep, WorkQueue.returnStep, place,
        queuePopReturn_eq present] at blocked
      cases blocked
  | asleep =>
      have empty := covered.chain_empty place fun _ => by simp [place, Phase.isSignalled]
      exact awake ⟨more, place, l, sound, empty⟩

/-- **The self test of the queue passes exactly if no enqueue finds the list adrift.**  In
any interleaving its steps come to an end, and where they have ended `queue_test` has
printed its OK if no enqueue ran while `head` was set and `tail` NULL; if one did, the
assertion has failed, or all numbers are sent and `queue_test` sleeps for ever. -/
theorem passes_iff (run : (machine bound).Run past s) :
    (∀ more t, (machine bound).Steps s more t → (∀ e ∈ more, own e.2 = true) →
        more.length ≤ potential bound s) ∧
      ((machine bound).Stuck (fun a => own a = true) s →
        (s.Passed bound ↔ ∀ e ∈ past, e.1.severs e.2 = false) ∧
        (¬ s.Passed bound → s.failed = true ∨
          (s.sent = bound ∧ s.workQueue.phase () = .asleep ∧ s.workQueue.queue.head = none))) := by
  refine ⟨?_, ?_⟩
  · intro more t steps isOwn
    have bounded := ((spends bound).length_add_le steps ⟨past, run⟩ isOwn).2
    omega
  intro halted
  have counts := run_counts run
  obtain ⟨l, sound, even, -⟩ := WorkQueue.run_deficit (run_queue run)
  rw [severs_queuePast] at even
  refine ⟨⟨?_, ?_⟩, ?_⟩
  · rintro ⟨going, through⟩
    refine even.1 ?_
    have account := sound.account
    have delivered := counts.delivered going
    rw [counts.enqueued, List.length_range] at account
    rw [WorkQueue.deficit, counts.enqueued, List.length_range]
    have sent := counts.sent_le
    omega
  · intro whole
    have going := not_failed run whole
    refine ⟨going, ?_⟩
    obtain ⟨sent, through | ⟨more, asleep, m, sound', empty⟩⟩ := at_end run going halted
    · exact through
    · -- nothing on the list, nothing lost: all numbers have been delivered
      obtain rfl := sound.shaped.holds.unique sound'.shaped.holds
      have delivered := counts.delivered going
      have none_ : s.pending = 0 := by simp [pending, asleep, Phase.inHand]
      have lost := even.2 whole
      rw [WorkQueue.deficit, counts.enqueued, List.length_range, empty, List.length_nil] at lost
      omega
  · intro notPassed
    cases going : s.failed with
    | true => exact Or.inl rfl
    | false =>
        right
        obtain ⟨sent, through | ⟨-, asleep, m, sound', rfl⟩⟩ := at_end run going halted
        · exact absurd ⟨going, through⟩ notPassed
        · exact ⟨sent, asleep, sound'.shaped.holds⟩

/-- Nothing is left to do once the test has passed. -/
theorem stuck_of_passed (run : (machine bound).Run past s) (passed : s.Passed bound) :
    (machine bound).Stuck (fun a => own a = true) s := by
  have counts := run_counts run
  obtain ⟨going, through⟩ := passed
  have delivered := counts.delivered going
  have within := counts.within going
  obtain ⟨l, sound⟩ := WorkQueue.run_sound (run_queue run)
  have account := sound.account
  rw [counts.enqueued, List.length_range] at account
  have none_ : s.pending = 0 := by omega
  intro a isOwn
  rw [Option.eq_none_iff_forall_ne_some]
  intro t stepped
  obtain ⟨-, ⟨item, wake, workQueue, -, more, -⟩ | ⟨workQueue, -, more, -⟩ |
    ⟨value, workQueue, -, taken, -⟩ | ⟨workQueue, rfl, -⟩⟩ := step_cases stepped
  · have sent := counts.sent_le
    omega
  · omega
  · obtain ⟨item, record, holding, -⟩ := WorkQueue.returnStep_cases taken
    simp [pending, holding, Phase.inHand] at none_
  · cases isOwn

/-- Each number is popped before the next but one is enqueued. -/
theorem passes_in_step :
    ∃ past s, (machine 3).Run past s ∧ s.Passed 3 ∧ ∀ e ∈ past, e.1.severs e.2 = false := by
  obtain ⟨past, s, run, seen⟩ := Machine.exists_run_of_exec (M := machine 3)
    (p := fun r => !r.2.failed && r.2.wanted == 3)
    [.pop, .enqueue 0 (some ()), .pop, .return, .enqueue 0 none, .enqueue 1 none, .pop, .return,
      .pop, .return] (by decide)
  simp only [Bool.and_eq_true, Bool.not_eq_true', beq_iff_eq] at seen
  have passed : s.Passed 3 := seen
  obtain ⟨-, atEnd⟩ := passes_iff run
  exact ⟨past, s, run, passed, (atEnd (stuck_of_passed run passed)).1.1 passed⟩

/-- The third number is lost, and the assertion fails at the fourth. -/
example : ((machine rounds).exec [.enqueue 0 none, .enqueue 1 none, .pop, .return, .enqueue 2 none,
    .pop, .return, .enqueue 3 none, .pop, .return]).any (fun r => r.2.failed) = true := by
  decide

/-- The third number and all that follow it are lost, and `queue_test` goes to sleep. -/
example : ((machine rounds).exec [.enqueue 0 none, .enqueue 1 none, .pop, .return, .enqueue 2 none,
    .enqueue 3 none, .enqueue 4 none, .enqueue 5 none, .enqueue 6 none, .enqueue 7 none,
    .enqueue 8 none, .enqueue 9 none, .pop, .return, .pop]).any
    (fun r => r.2.sent == rounds && decide (r.2.workQueue.phase () = .asleep)) = true := by
  decide

end QueueTest

end Cfutures
