/-
# Queue.Leaks -- the items that are never released

An item is leaked when it is allocated, the chain from `head` does not reach it and no
consumer holds it.  An enqueue leaks its own item when it finds the list adrift, and no
other step leaks anything (`Sound.leaked_step`); nothing ever finds a leaked item again.
So the leaked items of a run are as many as its enqueues on an adrift list, and they
stay (`leaks_exactly`).
-/
import Cfutures.Queue.Lossy

namespace Cfutures

open Cfutures.Theory

set_option autoImplicit false

universe u w

/-- One item is on the chain from `head`, and `tail` does not refer to it. -/
def Queue.isAdrift {α : Type w} (q : Queue α) : Bool :=
  ((q.head.bind q.items).any fun record => record.next.isNone) && decide (q.tail ≠ q.head)

theorem Queue.Shaped.isAdrift_iff {α : Type w} {q : Queue α} {l : List Addr}
    (shaped : q.Shaped l) : q.isAdrift = true ↔ q.Adrift l := by
  cases l with
  | nil =>
      have empty : q.head = none := shaped.holds
      simp [isAdrift, Adrift, empty]
  | cons a rest =>
      obtain ⟨atHead, record, present, onward⟩ := shaped.holds
      have alone : record.next = none ↔ rest = [] := not_iff_not.1 (Chain.ne_nil_iff onward).symm
      simp [isAdrift, Adrift, atHead, present, alone, shaped.tailLive]

namespace WorkQueue

variable {C : Type u} {α : Type w} [Fintype C] [DecidableEq C]

def Leaked (s : WorkQueue C α) (a : Addr) : Prop :=
  (s.queue.items a).isSome = true ∧ (∀ l, s.queue.Holds l → a ∉ l) ∧ ∀ c, s.phase c ≠ .holding a

/-- The item that a step leaks. -/
def leaks (s : WorkQueue C α) : QueueAction C α → Option Addr
  | .enqueue item _ _ => if s.queue.isAdrift then some item else none
  | _ => none

set_option linter.unusedSectionVars false

variable {s t : WorkQueue C α} {l : List Addr} {item a : Addr} {value : α} {c : C}
variable {past more : List (WorkQueue C α × QueueAction C α)}

theorem Sound.leaked_iff (sound : s.Sound l) : s.Leaked a ↔
    (s.queue.items a).isSome = true ∧ a ∉ l ∧ ∀ c, s.phase c ≠ .holding a := by
  constructor
  · rintro ⟨stored, off, unheld⟩
    exact ⟨stored, off l sound.shaped.holds, unheld⟩
  · rintro ⟨stored, off, unheld⟩
    refine ⟨stored, ?_, unheld⟩
    intro m holds
    rwa [holds.unique sound.shaped.holds]

/-- Steps that leave the items and the chain alone, and nobody comes to hold or let go. -/
theorem Sound.leaked_of_same (sound : s.Sound l) (sound' : t.Sound l)
    (items : t.queue.items = s.queue.items)
    (holding : ∀ c a, t.phase c = .holding a ↔ s.phase c = .holding a) :
    t.Leaked a ↔ s.Leaked a := by
  rw [sound.leaked_iff, sound'.leaked_iff, items]
  simp only [ne_eq, holding]

theorem Sound.leaked_enqueue {wake : Option C} (sound : s.Sound l)
    (stepped : s.enqueueStep item value wake = some t) :
    t.Leaked a ↔ s.Leaked a ∨ s.leaks (.enqueue item value wake) = some a := by
  have after := sound.enqueueStep stepped
  obtain ⟨fresh, queue, phase, linked, signalled, rfl⟩ := enqueueStep_cases stepped
  obtain ⟨items, -⟩ := Queue.enqueue_fields sound.shaped fresh linked
  have absent : ¬ s.Leaked item := by
    rintro ⟨stored, -⟩
    rw [fresh] at stored
    cases stored
  have unheld : ∀ d, s.phase d ≠ .holding item := by
    intro d holding
    obtain ⟨-, -, record, present, -⟩ := sound.held d item holding
    rw [fresh] at present
    cases present
  have stored : a ≠ item → (queue.items a).isSome = (s.queue.items a).isSome := by
    intro ne
    have same := congrArg Option.isSome (s.queue.itemsAfterEnqueue_value value ne)
    rwa [← items, Option.isSome_map, Option.isSome_map] at same
  obtain ⟨-, -, ⟨anchored, sound', -⟩ | ⟨adrift, sound', -, -⟩⟩ := after
  · have linked : s.queue.isAdrift = false := by
      rw [← Bool.not_eq_true, sound.shaped.isAdrift_iff]
      exact anchored.not_adrift
    rw [sound'.leaked_iff, leaks, linked]
    by_cases new : a = item
    · subst new
      simp [absent]
    · simp [sound.leaked_iff, stored new, new, condSignal_holding signalled]
  · have lost : s.queue.isAdrift = true := sound.shaped.isAdrift_iff.2 adrift
    have off : item ∉ l := fun member =>
      Chain.ne_of_absent sound.shaped.holds fresh item member rfl
    rw [sound'.leaked_iff, leaks, lost]
    by_cases new : a = item
    · subst new
      simp [off, items, Queue.itemsAfterEnqueue_item, condSignal_holding signalled, unheld]
    · simp [sound.leaked_iff, stored new, Ne.symm new, condSignal_holding signalled]

theorem Sound.leaked_pop (sound : s.Sound l) (stepped : s.popStep c = some t) :
    t.Leaked a ↔ s.Leaked a := by
  have after := sound.popStep stepped
  obtain ⟨testing, ⟨empty, rfl⟩ | ⟨item, queue, record, unlinked, present, rfl⟩⟩ :=
    popStep_cases stepped
  · obtain ⟨-, ⟨-, -, -, sound'⟩ | ⟨item, -, -, holding, -⟩⟩ := after
    · refine sound.leaked_of_same sound' rfl fun d b => ⟨holding_of_update (by simp), ?_⟩
      intro held
      have ne : d ≠ c := by
        rintro rfl
        simp [held, Phase.testing] at testing
      simp [ne, held]
    · simp at holding
  · obtain ⟨rest, rfl, shaped, items, -⟩ := Queue.pop_cases sound.shaped unlinked
    obtain ⟨-, ⟨empty, -⟩ | ⟨item', rest', same, -, -, sound', -⟩⟩ := after
    · simp [queuePopSection, empty] at unlinked
    obtain ⟨rfl, rfl⟩ := List.cons.inj same
    rw [sound.leaked_iff, sound'.leaked_iff, items]
    -- the item taken leaves the chain for the hands of its consumer
    have apart : (a ∉ rest ∧ ∀ d, Function.update s.phase c (.holding item) d ≠ .holding a) ↔
        a ∉ item :: rest ∧ ∀ d, s.phase d ≠ .holding a := by
      constructor
      · rintro ⟨off, unheld⟩
        have ne : a ≠ item := by
          rintro rfl
          exact unheld c (by simp)
        refine ⟨by simp [ne, off], ?_⟩
        intro d holding
        have other : d ≠ c := by
          rintro rfl
          simp [holding, Phase.testing] at testing
        exact unheld d (by simp [other, holding])
      · rintro ⟨off, unheld⟩
        rw [List.mem_cons, not_or] at off
        refine ⟨off.2, ?_⟩
        intro d holding
        by_cases other : d = c
        · subst other
          exact off.1 (by simpa using holding.symm)
        · exact unheld d (by simpa [other] using holding)
    exact and_congr_right fun _ => apart

theorem Sound.leaked_return {result : α × WorkQueue C α} (sound : s.Sound l)
    (stepped : s.returnStep c = some result) : result.2.Leaked a ↔ s.Leaked a := by
  have sound' := (sound.returnStep stepped).2.2.2.2.2
  obtain ⟨item, record, holding, present, rfl⟩ := returnStep_cases stepped
  rw [sound.leaked_iff, sound'.leaked_iff]
  by_cases released : a = item
  · subst released
    constructor
    · rintro ⟨stored, -⟩
      simp at stored
    · rintro ⟨-, -, unheld⟩
      exact absurd holding (unheld c)
  · have unheld : ∀ d, Function.update s.phase c .outside d = .holding a ↔
        s.phase d = .holding a := by
      intro d
      refine ⟨holding_of_update (by simp), ?_⟩
      intro held
      have other : d ≠ c := by
        rintro rfl
        rw [holding, Phase.holding.injEq] at held
        exact released held.symm
      simpa [other] using held
    simp only [Store.free_ne _ released, ne_eq, unheld]

/-- A step leaks what it says, and nothing leaked is found again. -/
theorem Sound.leaked_step (sound : s.Sound l) {b : QueueAction C α} (stepped : s.step b = some t) :
    t.Leaked a ↔ s.Leaked a ∨ s.leaks b = some a := by
  cases b with
  | enqueue item value wake => exact sound.leaked_enqueue stepped
  | pop c => simpa [leaks] using sound.leaked_pop stepped
  | «return» c =>
      obtain ⟨result, returned, rfl⟩ := Option.map_eq_some_iff.1 stepped
      simpa [leaks] using sound.leaked_return returned
  | spurious c =>
      have sound' := (sound.spuriousStep stepped).2.2.2
      obtain ⟨asleep, rfl⟩ := spuriousStep_cases stepped
      have holding : ∀ d b, Function.update s.phase c (.woken false) d = .holding b ↔
          s.phase d = .holding b := by
        intro d b
        refine ⟨holding_of_update (by simp), ?_⟩
        intro held
        have other : d ≠ c := by
          rintro rfl
          simp [held] at asleep
        simpa [other] using held
      simpa [leaks] using sound.leaked_of_same sound' rfl holding
  | cancel c heir =>
      have sound' := (sound.cancelStep stepped).2.2.2
      obtain ⟨queue, -, gone, unheld, others⟩ := cancelStep_phase stepped
      have holding : ∀ d b, t.phase d = .holding b ↔ s.phase d = .holding b := by
        intro d b
        by_cases same : d = c
        · subst same
          simp [gone, unheld]
        · rcases others d same with kept | ⟨asleep, woken⟩
          · rw [kept]
          · simp [asleep, woken]
      simpa [leaks] using sound.leaked_of_same sound' (by rw [queue]) holding

/-! ## Runs -/

theorem steps_leaked (sound : s.Sound l) (steps : (machine C α).Steps s more t)
    (leaked : s.Leaked a) : t.Leaked a := by
  have kept : t.Leaked a ∧ ∃ l, t.Sound l :=
    Machine.Steps.invariant (I := fun s : WorkQueue C α => s.Leaked a ∧ ∃ l, s.Sound l)
      (fun _ _ _ ⟨leaked, _, sound⟩ stepped =>
        ⟨(sound.leaked_step stepped).2 (Or.inl leaked), sound.step stepped⟩)
      steps ⟨leaked, l, sound⟩
  exact kept.1

/-- What a step leaks was not leaked before. -/
theorem leaks_new {b : QueueAction C α} (stepped : s.step b = some t)
    (leaks : s.leaks b = some a) : ¬ s.Leaked a := by
  cases b with
  | enqueue item value wake =>
      obtain ⟨fresh, -⟩ := enqueueStep_cases stepped
      rintro ⟨stored, -⟩
      simp only [WorkQueue.leaks, Option.ite_none_right_eq_some, Option.some.injEq] at leaks
      rw [← leaks.2, fresh] at stored
      cases stored
  | pop | «return» | spurious | cancel => cases leaks

theorem run_leaked (run : (machine C α).Run past s) :
    ∃ leaked : List Addr, leaked.Nodup ∧ (∀ a, s.Leaked a ↔ a ∈ leaked) ∧
      leaked.length = past.countP fun e => (e.1.leaks e.2).isSome := by
  induction run with
  | none =>
      refine ⟨[], List.nodup_nil, ?_, rfl⟩
      intro a
      simp [Leaked, machine, start, queueNew, Store.empty]
  | @step past s b t before stepped ih =>
      obtain ⟨leaked, apart, member, count⟩ := ih
      obtain ⟨l, sound⟩ := run_sound before
      have after := fun a => sound.leaked_step (a := a) stepped
      cases lost : s.leaks b with
      | none =>
          refine ⟨leaked, apart, ?_, by simpa [lost] using count⟩
          intro a
          rw [after, lost, member]
          simp
      | some item =>
          have new : item ∉ leaked := fun old =>
            leaks_new stepped lost ((member item).2 old)
          refine ⟨item :: leaked, List.nodup_cons.2 ⟨new, apart⟩, ?_, by simpa [lost] using count⟩
          intro a
          rw [after, lost, member, List.mem_cons, Option.some.injEq, or_comm, eq_comm]

/-- **An item is lost for good by an enqueue that finds the list adrift, and by nothing
else.**  The leaked items are as many as those enqueues, and no later step reaches one. -/
theorem leaks_exactly (run : (machine C α).Run past s) :
    (∃ leaked : List Addr, leaked.Nodup ∧ (∀ a, s.Leaked a ↔ a ∈ leaked) ∧
        leaked.length = past.countP fun e => (e.1.leaks e.2).isSome) ∧
      ∀ a, s.Leaked a → ∀ more t, (machine C α).Steps s more t → t.Leaked a := by
  obtain ⟨l, sound⟩ := run_sound run
  exact ⟨run_leaked run, fun _ leaked _ _ steps => steps_leaked sound steps leaked⟩

/-- Two enqueues find the second of two items left alone: both of theirs are lost. -/
theorem leaks_exactly_two :
    ∃ past s, (machine Unit Nat).Run past s ∧
      ∃ leaked : List Addr, leaked.Nodup ∧ (∀ a, s.Leaked a ↔ a ∈ leaked) ∧
        leaked.length = 2 := by
  obtain ⟨past, s, run, seen⟩ := Machine.exists_run_of_exec (M := machine Unit Nat)
    (p := fun r => decide ((r.1.countP fun e => (e.1.leaks e.2).isSome) = 2))
    [.enqueue 0 5 none, .enqueue 1 6 none, .pop (), .enqueue 2 7 none, .enqueue 3 8 none]
    (by decide)
  obtain ⟨⟨leaked, apart, member, count⟩, -⟩ := leaks_exactly run
  exact ⟨past, s, run, leaked, apart, member, count.trans (of_decide_eq_true seen)⟩

end WorkQueue

end Cfutures
