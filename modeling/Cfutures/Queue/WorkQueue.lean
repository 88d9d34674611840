/-
# Queue.WorkQueue -- producers and consumers on one queue

The machine whose steps are the critical sections of `queue_enqueue` and
`queue_pop`, on one queue, by any number of threads.  A consumer is a member of
`C` with a `Phase` that says where in `queue_pop` it is; producers need no state,
since `queue_enqueue` is one section.  The condition variable is the phases: the
sleeping consumers are those `asleep`.

What the environment does is in the actions too:

* `malloc` returns an address no item of the store has (`enqueue`'s `item`);
* `pthread_cond_signal` wakes one sleeping consumer, if there is one (`wake`);
* a sleeping consumer may wake without a signal (`spurious`);
* a consumer in the wait may act on a cancellation (`cancel`).  Cancelled after
  it was signalled, it passes the signal on to another sleeper, if there is one.

`occurrence`, `enqueued` and `delivered` are the record of the run: the number of
the `queue_enqueue` that put an item in, every value enqueued, and every item
taken by a pop, in the order of the critical sections.
-/
import Cfutures.Queue.Shape
import Cfutures.Theory.Machine
import Mathlib.Data.Fintype.Basic

namespace Cfutures

open Cfutures.Theory

set_option autoImplicit false

universe u v

/-- Where a consumer is. -/
inductive Phase where
  /-- Not in `queue_pop`, or in it before its first look at `head`. -/
  | outside
  /-- In `pthread_cond_wait`. -/
  | asleep
  /-- Woken, by a signal or not, and yet to look at `head` again. -/
  | woken (signalled : Bool)
  /-- Past the critical section, with an item it has unlinked. -/
  | holding (item : Addr)
  /-- Terminated in `pthread_cond_wait`. -/
  | cancelled
  deriving DecidableEq

/-- The loop of `queue_pop` is about to test `head`. -/
def Phase.testing : Phase → Bool
  | .outside | .woken _ => true
  | _ => false

/-- One item taken by a pop: who took it, and which enqueue had put it in. -/
structure Delivery (C : Type u) (α : Type v) where
  consumer : C
  value : α
  occurrence : Nat

/-- The delivered item, named by its value and the number of its enqueue. -/
def Delivery.entry {C : Type u} {α : Type v} (d : Delivery C α) : α × Nat := (d.value, d.occurrence)

structure WorkQueue (C : Type u) (α : Type v) where
  queue : Queue α
  phase : C → Phase
  occurrence : Addr → Nat
  enqueued : List α
  delivered : List (Delivery C α)

inductive QueueAction (C : Type u) (α : Type v) where
  | enqueue (item : Addr) (value : α) (wake : Option C)
  | pop (consumer : C)
  | return (consumer : C)
  | spurious (consumer : C)
  | cancel (consumer : C) (heir : Option C)

section Signal

variable {C : Type u} [Fintype C] [DecidableEq C]

/-- `pthread_cond_signal`: it must wake a sleeper when there is one. -/
def condSignal (phase : C → Phase) : Option C → Option (C → Phase)
  | some c => if phase c = .asleep then some (Function.update phase c (.woken true)) else none
  | none => if ∀ c, phase c ≠ .asleep then some phase else none

theorem condSignal_cases {phase phase' : C → Phase} {wake : Option C}
    (signalled : condSignal phase wake = some phase') :
    (∃ c, wake = some c ∧ phase c = .asleep ∧ phase' = Function.update phase c (.woken true)) ∨
      (wake = none ∧ (∀ c, phase c ≠ .asleep) ∧ phase' = phase) := by
  cases wake with
  | some c =>
      simp only [condSignal, Option.ite_none_right_eq_some, Option.some.injEq] at signalled
      exact Or.inl ⟨c, rfl, signalled.1, signalled.2.symm⟩
  | none =>
      simp only [condSignal, Option.ite_none_right_eq_some, Option.some.injEq] at signalled
      exact Or.inr ⟨rfl, signalled.1, signalled.2.symm⟩

/-- A signal moves nobody who is not asleep. -/
theorem condSignal_other {phase phase' : C → Phase} {wake : Option C}
    (signalled : condSignal phase wake = some phase') {c : C} (awake : phase c ≠ .asleep) :
    phase' c = phase c := by
  rcases condSignal_cases signalled with ⟨d, -, sleeping, rfl⟩ | ⟨-, -, rfl⟩
  · have ne : c ≠ d := fun same => awake (same ▸ sleeping)
    simp [ne]
  · rfl

/-- After a signal a consumer is where it was, or has just been signalled. -/
theorem condSignal_apply {phase phase' : C → Phase} {wake : Option C}
    (signalled : condSignal phase wake = some phase') (c : C) :
    phase' c = phase c ∨ (phase c = .asleep ∧ phase' c = .woken true) := by
  rcases condSignal_cases signalled with ⟨d, -, sleeping, rfl⟩ | ⟨-, -, rfl⟩
  · by_cases same : c = d
    · subst same
      exact Or.inr ⟨sleeping, by simp⟩
    · exact Or.inl (by simp [same])
  · exact Or.inl rfl

end Signal

namespace WorkQueue

variable {C : Type u} {α : Type v} [Fintype C] [DecidableEq C]

def start : WorkQueue C α where
  queue := queueNew
  phase := fun _ => .outside
  occurrence := fun _ => 0
  enqueued := []
  delivered := []

def enqueueStep (s : WorkQueue C α) (item : Addr) (value : α) (wake : Option C) :
    Option (WorkQueue C α) :=
  if (s.queue.items item).isNone then
    (queueEnqueue s.queue item value).bind fun queue =>
      (condSignal s.phase wake).map fun phase =>
        { queue := queue, phase := phase
          occurrence := Function.update s.occurrence item s.enqueued.length
          enqueued := s.enqueued ++ [value], delivered := s.delivered }
  else none

/-- `while (!self->head) pthread_cond_wait (...)`, then the rest of the section. -/
def popStep (s : WorkQueue C α) (c : C) : Option (WorkQueue C α) :=
  if (s.phase c).testing then
    match s.queue.head with
    | none => some { s with phase := Function.update s.phase c .asleep }
    | some _ =>
        (queuePopSection s.queue).bind fun taken =>
          (s.queue.items taken.1).map fun record =>
            { s with
              queue := taken.2
              phase := Function.update s.phase c (.holding taken.1)
              delivered := s.delivered ++ [⟨c, record.value, s.occurrence taken.1⟩] }
  else none

def returnStep (s : WorkQueue C α) (c : C) : Option (α × WorkQueue C α) :=
  match s.phase c with
  | .holding item =>
      (queuePopReturn s.queue item).map fun returned =>
        (returned.1, { s with queue := returned.2, phase := Function.update s.phase c .outside })
  | _ => none

def spuriousStep (s : WorkQueue C α) (c : C) : Option (WorkQueue C α) :=
  if s.phase c = .asleep then
    some { s with phase := Function.update s.phase c (.woken false) }
  else none

/-- The cancelled thread takes the mutex again, runs `thread_relinquish_lock` and
is gone.  Only a signalled one has a signal to pass on. -/
def cancelStep (s : WorkQueue C α) (c : C) (heir : Option C) : Option (WorkQueue C α) :=
  let phase := Function.update s.phase c .cancelled
  match s.phase c with
  | .woken true => (condSignal phase heir).map fun phase => { s with phase := phase }
  | .asleep | .woken false => if heir = none then some { s with phase := phase } else none
  | _ => none

def step (s : WorkQueue C α) : QueueAction C α → Option (WorkQueue C α)
  | .enqueue item value wake => s.enqueueStep item value wake
  | .pop c => s.popStep c
  | .return c => (s.returnStep c).map Prod.snd
  | .spurious c => s.spuriousStep c
  | .cancel c heir => s.cancelStep c heir

def machine (C : Type u) (α : Type v) [Fintype C] [DecidableEq C] :
    Machine (WorkQueue C α) (QueueAction C α) where
  start := start
  step := step

/-! ## What a step can do -/

set_option linter.unusedSectionVars false

variable {s t : WorkQueue C α} {item : Addr} {value : α} {c : C}

theorem enqueueStep_cases {wake : Option C} (stepped : s.enqueueStep item value wake = some t) :
    s.queue.items item = none ∧ ∃ queue phase,
      queueEnqueue s.queue item value = some queue ∧ condSignal s.phase wake = some phase ∧
      t = { queue := queue, phase := phase
            occurrence := Function.update s.occurrence item s.enqueued.length
            enqueued := s.enqueued ++ [value], delivered := s.delivered } := by
  simp only [enqueueStep, Option.isNone_iff_eq_none, Option.ite_none_right_eq_some,
    Option.bind_eq_some_iff, Option.map_eq_some_iff] at stepped
  obtain ⟨fresh, queue, linked, phase, signalled, rfl⟩ := stepped
  exact ⟨fresh, queue, phase, linked, signalled, rfl⟩

theorem popStep_cases (stepped : s.popStep c = some t) :
    (s.phase c).testing = true ∧
      ((s.queue.head = none ∧ t = { s with phase := Function.update s.phase c .asleep }) ∨
        ∃ item queue record, queuePopSection s.queue = some (item, queue) ∧
          s.queue.items item = some record ∧
          t = { s with
                queue := queue
                phase := Function.update s.phase c (.holding item)
                delivered := s.delivered ++ [⟨c, record.value, s.occurrence item⟩] }) := by
  simp only [popStep, Option.ite_none_right_eq_some] at stepped
  obtain ⟨testing, stepped⟩ := stepped
  refine ⟨testing, ?_⟩
  cases atHead : s.queue.head with
  | none =>
      simp only [atHead, Option.some.injEq] at stepped
      exact Or.inl ⟨rfl, stepped.symm⟩
  | some _ =>
      simp only [atHead, Option.bind_eq_some_iff, Option.map_eq_some_iff] at stepped
      obtain ⟨taken, unlinked, record, present, rfl⟩ := stepped
      exact Or.inr ⟨taken.1, taken.2, record, unlinked, present, rfl⟩

theorem returnStep_cases {result : α × WorkQueue C α} (stepped : s.returnStep c = some result) :
    ∃ item record, s.phase c = .holding item ∧ s.queue.items item = some record ∧
      result = (record.value,
        { s with
          queue := { s.queue with items := s.queue.items.free item }
          phase := Function.update s.phase c .outside }) := by
  unfold returnStep at stepped
  split at stepped
  · rename_i item atPhase
    simp only [queuePopReturn, Option.map_map, Option.map_eq_some_iff] at stepped
    obtain ⟨record, present, rfl⟩ := stepped
    exact ⟨item, record, atPhase, present, rfl⟩
  · cases stepped

theorem spuriousStep_cases (stepped : s.spuriousStep c = some t) :
    s.phase c = .asleep ∧ t = { s with phase := Function.update s.phase c (.woken false) } := by
  simp only [spuriousStep, Option.ite_none_right_eq_some, Option.some.injEq] at stepped
  exact ⟨stepped.1, stepped.2.symm⟩

theorem cancelStep_cases {heir : Option C} (stepped : s.cancelStep c heir = some t) :
    (s.phase c = .woken true ∧ ∃ phase,
        condSignal (Function.update s.phase c .cancelled) heir = some phase ∧
        t = { s with phase := phase }) ∨
      ((s.phase c = .asleep ∨ s.phase c = .woken false) ∧ heir = none ∧
        t = { s with phase := Function.update s.phase c .cancelled }) := by
  unfold cancelStep at stepped
  split at stepped
  · rename_i atPhase
    obtain ⟨phase, signalled, rfl⟩ := Option.map_eq_some_iff.1 stepped
    exact Or.inl ⟨atPhase, phase, signalled, rfl⟩
  · rename_i atPhase
    simp only [Option.ite_none_right_eq_some, Option.some.injEq] at stepped
    exact Or.inr ⟨Or.inl atPhase, stepped.1, stepped.2.symm⟩
  · rename_i atPhase
    simp only [Option.ite_none_right_eq_some, Option.some.injEq] at stepped
    exact Or.inr ⟨Or.inr atPhase, stepped.1, stepped.2.symm⟩
  · cases stepped

/-- A cancelled consumer was in the wait, and its signal moves at most a sleeper. -/
theorem cancelStep_phase {heir : Option C} (stepped : s.cancelStep c heir = some t) :
    t.queue = s.queue ∧ t.delivered = s.delivered ∧ t.phase c = .cancelled ∧
      (∀ item, s.phase c ≠ .holding item) ∧
      ∀ d, d ≠ c → t.phase d = s.phase d ∨ (s.phase d = .asleep ∧ t.phase d = .woken true) := by
  obtain ⟨place, phase, signalled, rfl⟩ | ⟨place, -, rfl⟩ := cancelStep_cases stepped
  · refine ⟨rfl, rfl, ?_, by simp [place], ?_⟩
    · exact (condSignal_other (c := c) signalled (by simp)).trans (by simp)
    · intro d ne
      simpa [ne] using condSignal_apply signalled d
  · refine ⟨rfl, rfl, by simp, ?_, fun d ne => Or.inl (by simp [ne])⟩
    intro item
    rcases place with place | place <;> simp [place]

end WorkQueue

end Cfutures
