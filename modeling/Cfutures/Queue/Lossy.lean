/-
# Queue.Lossy -- what the queue is, as a list that sometimes loses

`queue_enqueue` and `queue_pop` on linked items, with threads that sleep and are woken
around them, come to this: a list of pending values, and a flag that is set when a pop
leaves exactly one of them.  While it is set a put is lost.

    put v     pending ++ [v], or pending itself while adrift
    take      the first of pending; adrift afterwards if one is left

`behaviours_iff`: the values that the pops of any run deliver are those of the lossy
queue on the same enqueues and pops in the order of their critical sections, and every
sequence of calls the lossy queue can take is that of a run.
-/
import Cfutures.Queue.Cancellation
import Cfutures.Theory.Simulation

namespace Cfutures

open Cfutures.Theory

set_option autoImplicit false

universe u v w

structure LossyQueue (α : Type w) where
  pending : List α
  adrift : Bool
  taken : List α

inductive LossyCall (α : Type w) where
  | put (value : α)
  | take
  deriving DecidableEq

namespace LossyQueue

variable {α : Type w}

def put (m : LossyQueue α) (value : α) : LossyQueue α :=
  if m.adrift then m else { m with pending := m.pending ++ [value] }

def take (m : LossyQueue α) : Option (LossyQueue α) :=
  match m.pending with
  | [] => none
  | value :: rest =>
      some { pending := rest, adrift := decide (rest.length = 1), taken := m.taken ++ [value] }

/-- A take loses nothing and keeps the order. -/
theorem take_values {m m' : LossyQueue α} (took : m.take = some m') :
    m'.taken ++ m'.pending = m.taken ++ m.pending := by
  unfold take at took
  split at took
  · cases took
  · rename_i value rest atHead
    cases took
    simp [atHead]

def step (m : LossyQueue α) : LossyCall α → Option (LossyQueue α)
  | .put value => some (m.put value)
  | .take => m.take

def machine (α : Type w) : Machine (LossyQueue α) (LossyCall α) where
  start := { pending := [], adrift := false, taken := [] }
  step := step

end LossyQueue

namespace Queue

variable {α : Type w} {q q' : Queue α} {l : List Addr} {item : Addr}

/-- A list is in one position only. -/
theorem Anchored.not_adrift (anchored : q.Anchored l) : ¬ q.Adrift l := by
  rintro ⟨⟨only, rfl, notTail⟩, -⟩
  exact notTail anchored

theorem Shaped.adrift_iff (shaped : q.Shaped l) : q.Adrift l ↔ ¬ q.Anchored l :=
  ⟨fun adrift anchored => anchored.not_adrift adrift, shaped.tail.resolve_left⟩

/-- A pop sets the list adrift exactly when it leaves one item. -/
theorem pop_adrift_iff (shaped : q.Shaped (item :: l))
    (unlinked : queuePopSection q = some (item, q')) : q'.Adrift l ↔ l.length = 1 := by
  constructor
  · rintro ⟨⟨only, rfl, -⟩, -⟩
    rfl
  · intro one
    obtain ⟨only, rfl⟩ := List.length_eq_one_iff.1 one
    rw [queuePopSection_more shaped.holds, Option.some.injEq, Prod.mk.injEq] at unlinked
    obtain ⟨-, rfl⟩ := unlinked
    refine ⟨⟨only, rfl, ?_⟩, ?_⟩
    · simp
    · intro t atTail
      simp at atTail

end Queue

namespace WorkQueue

variable {C : Type u} {α : Type w} [Fintype C] [DecidableEq C]

/-- What a step is to the lossy queue: a pop counts when it takes an item. -/
def lossyCall (s : WorkQueue C α) : QueueAction C α → Option (LossyCall α)
  | .enqueue _ value _ => some (.put value)
  | .pop _ => if s.queue.head.isSome then some .take else none
  | _ => none

/-- The values on a chain. -/
def values (s : WorkQueue C α) (l : List Addr) : List α := (s.entries l).map Prod.fst

/-- The lossy queue that the linked items stand for. -/
def Represents (s : WorkQueue C α) (m : LossyQueue α) : Prop :=
  ∃ l, s.Sound l ∧ m.pending = s.values l ∧ (m.adrift = true ↔ s.queue.Adrift l) ∧
    m.taken = s.delivered.map Delivery.value

set_option linter.unusedSectionVars false

variable {s t : WorkQueue C α} {l : List Addr} {item : Addr} {value : α} {c : C}
  {m : LossyQueue α} {past : List (WorkQueue C α × QueueAction C α)}

theorem start_represents : (start : WorkQueue C α).Represents (LossyQueue.machine α).start := by
  refine ⟨[], start_sound, rfl, ?_, rfl⟩
  constructor
  · intro never
    cases never
  · rintro ⟨⟨only, impossible, -⟩, -⟩
    cases impossible

theorem Represents.enqueueStep {wake : Option C} (represents : s.Represents m)
    (stepped : s.enqueueStep item value wake = some t) : t.Represents (m.put value) := by
  obtain ⟨l, sound, pending, adrift, taken⟩ := represents
  obtain ⟨kept, new⟩ := sound.enqueueStep_entry stepped
  obtain ⟨fresh, queue, phase, -, -, same⟩ := enqueueStep_cases stepped
  have notOn : ∀ a ∈ l, a ≠ item := Chain.ne_of_absent sound.shaped.holds fresh
  have valuesKept : t.values l = s.values l :=
    congrArg (List.map Prod.fst) (entries_congr fun a member => kept a (notOn a member))
  obtain ⟨-, delivered, ⟨anchored, sound', anchored'⟩ | ⟨astray, sound', -, astray'⟩⟩ :=
    sound.enqueueStep stepped
  · have linked : m.adrift = false := by
      rw [← Bool.not_eq_true, adrift]
      exact anchored.not_adrift
    refine ⟨l ++ [item], sound', ?_, ?_, ?_⟩
    · rw [values, entries, List.filterMap_append, List.map_append]
      simp only [LossyQueue.put, linked, Bool.false_eq_true, if_false, pending, ← valuesKept]
      simp [values, entries, new]
    · simp [LossyQueue.put, linked, anchored'.not_adrift]
    · simpa [LossyQueue.put, linked, delivered] using taken
  · have lost : m.adrift = true := adrift.2 astray
    have unchanged : m.put value = m := by simp [LossyQueue.put, lost]
    rw [unchanged]
    refine ⟨l, sound', by rw [valuesKept, pending], ?_, by rw [delivered, taken]⟩
    simp [lost, astray']

/-- Steps that only move consumers around, none of them to hold an item. -/
theorem Represents.of_phase (represents : s.Represents m) {phase : C → Phase}
    (same : ∀ c item, phase c = .holding item → s.phase c = .holding item) :
    Represents { s with phase := phase } m := by
  obtain ⟨l, sound, pending, adrift, taken⟩ := represents
  exact ⟨l, sound.of_phase same, pending, adrift, taken⟩

theorem values_cons {record : Item α} (present : s.queue.items item = some record)
    (l : List Addr) : s.values (item :: l) = record.value :: s.values l := by
  simp [values, entries, entry, present]

/-- What a pop unlinks is the first of what is pending. -/
theorem Represents.first (represents : s.Represents m) {queue : Queue α} {record : Item α}
    (unlinked : queuePopSection s.queue = some (item, queue))
    (present : s.queue.items item = some record) : ∃ rest, m.pending = record.value :: rest := by
  obtain ⟨l, sound, pending, -, -⟩ := represents
  obtain ⟨rest, rfl, -, -, -⟩ := Queue.pop_cases sound.shaped unlinked
  exact ⟨s.values rest, pending.trans (values_cons present rest)⟩

theorem Represents.popStep (represents : s.Represents m) (stepped : s.popStep c = some t) :
    (s.queue.head = none ∧ t.Represents m) ∨
      (s.queue.head.isSome = true ∧ ∃ m', m.take = some m' ∧ t.Represents m') := by
  obtain ⟨-, ⟨empty, rfl⟩ | ⟨item, queue, record, unlinked, present, rfl⟩⟩ := popStep_cases stepped
  · exact Or.inl ⟨empty, represents.of_phase fun _ _ => holding_of_update (by simp)⟩
  · right
    obtain ⟨l, sound, pending, adrift, taken⟩ := represents
    obtain ⟨-, ⟨empty, -⟩ | ⟨item', rest, rfl, holding, -, sound', -⟩⟩ := sound.popStep stepped
    · simp [queuePopSection, empty] at unlinked
    obtain rfl : item = item' := by simpa using holding
    obtain ⟨rest', same, shaped, items, -⟩ := Queue.pop_cases sound.shaped unlinked
    obtain rfl : rest = rest' := (List.cons.inj same).2
    have first : m.pending = record.value :: s.values rest :=
      pending.trans (values_cons present rest)
    have atHead : s.queue.head.isSome = true := by
      rw [sound.shaped.holds.1]
      rfl
    have sizes : (s.values rest).length = rest.length := by
      have here : s.entry item = some (record.value, s.occurrence item) := by
        simp [entry, present]
      have whole := sound.entries_length
      simp only [entries, List.filterMap_cons, here, List.length_cons] at whole
      simpa [values, entries] using whole
    refine ⟨atHead, _, by rw [LossyQueue.take, first], rest, sound', ?_, ?_, ?_⟩
    · exact congrArg (List.map Prod.fst) (entries_congr fun a _ => by simp [entry, items])
    · rw [decide_eq_true_eq, sizes]
      exact (Queue.pop_adrift_iff sound.shaped unlinked).symm
    · simp [taken]

theorem Represents.returnStep {result : α × WorkQueue C α} (represents : s.Represents m)
    (returned : s.returnStep c = some result) : result.2.Represents m := by
  obtain ⟨l, sound, pending, adrift, taken⟩ := represents
  obtain ⟨-, delivered, -, tail, -, sound'⟩ := sound.returnStep returned
  obtain ⟨item, record, holding, present, rfl⟩ := returnStep_cases returned
  refine ⟨l, sound', ?_, ?_, taken⟩
  · rw [pending]
    apply congrArg (List.map Prod.fst)
    apply (entries_congr _).symm
    intro a member
    have ne : a ≠ item := by
      rintro rfl
      exact (sound.held c a holding).1 member
    simp [entry, Store.free_ne _ ne]
  · rw [adrift, sound.shaped.adrift_iff, sound'.shaped.adrift_iff]
    rfl

theorem simulates_lossy : Machine.Simulates (machine C α) (LossyQueue.machine α) lossyCall
    Represents where
  start := start_represents
  step := by
    intro s m a t represents stepped
    cases a with
    | enqueue item value wake => exact ⟨_, rfl, represents.enqueueStep stepped⟩
    | pop c =>
        rcases represents.popStep stepped with ⟨empty, after⟩ | ⟨busy, m', took, after⟩
        · refine ⟨m, ?_, after⟩
          simp [lossyCall, empty, Machine.Moves]
        · refine ⟨m', ?_, after⟩
          rw [lossyCall, if_pos busy]
          exact took
    | «return» c =>
        obtain ⟨result, returned, rfl⟩ := Option.map_eq_some_iff.1 stepped
        exact ⟨m, rfl, represents.returnStep returned⟩
    | spurious c =>
        obtain ⟨-, rfl⟩ := spuriousStep_cases stepped
        exact ⟨m, rfl, represents.of_phase fun _ _ => holding_of_update (by simp)⟩
    | cancel c heir =>
        obtain ⟨-, phase, signalled, rfl⟩ | ⟨-, -, rfl⟩ := cancelStep_cases stepped
        · refine ⟨m, rfl, represents.of_phase ?_⟩
          intro _ _ holding
          exact holding_of_update (by simp) ((condSignal_holding signalled).1 holding)
        · exact ⟨m, rfl, represents.of_phase fun _ _ => holding_of_update (by simp)⟩

/-! ## Every behaviour of the lossy queue is one of the code's -/

/-- Nobody is in `queue_pop`, and `malloc` has an address to return. -/
def AtRest (s : WorkQueue C α) : Prop := (∀ c, s.phase c = .outside) ∧ s.queue.items.HasRoom

theorem AtRest.steps (atRest : s.AtRest) {past : List (WorkQueue C α × QueueAction C α)}
    (sound : s.Sound l) (steps : (machine C α).Steps s past t)
    (outside : ∀ c, t.phase c = .outside) : t.AtRest := by
  have kept : t.queue.items.HasRoom ∧ ∃ l, t.Sound l :=
    Machine.Steps.invariant (I := fun s : WorkQueue C α => s.queue.items.HasRoom ∧ ∃ l, s.Sound l)
      (fun s a t ⟨room, l, sound⟩ stepped => ⟨hasRoom_step room sound stepped, sound.step stepped⟩)
      steps ⟨atRest.2, l, sound⟩
  exact ⟨outside, kept.1⟩

/-- A `queue_enqueue` that nobody is waiting for. -/
theorem AtRest.plays_put (atRest : s.AtRest) (sound : s.Sound l) (value : α) :
    ∃ more t, (machine C α).Steps s more t ∧
      Machine.observed lossyCall more = [.put value] ∧ t.AtRest := by
  obtain ⟨item, absent⟩ := atRest.2.exists_absent
  obtain ⟨queue, linked⟩ := Queue.enqueue_defined sound.shaped absent value
  have nobody : condSignal s.phase none = some s.phase := by simp [condSignal, atRest.1]
  obtain ⟨t, stepped⟩ : ∃ t, s.enqueueStep item value none = some t := by
    simp [WorkQueue.enqueueStep, absent, linked, nobody]
  obtain ⟨-, _, phase, -, signalled, same⟩ := enqueueStep_cases stepped
  rw [nobody, Option.some.injEq] at signalled
  have outside : ∀ c, t.phase c = .outside := by
    rw [same, ← signalled]
    exact atRest.1
  have steps : (machine C α).Steps s [(s, .enqueue item value none)] t := .single stepped
  exact ⟨_, t, steps, rfl, atRest.steps sound steps outside⟩

/-- A whole `queue_pop` of a consumer that nobody comes between. -/
theorem AtRest.plays_take (atRest : s.AtRest) (sound : s.Sound (item :: l)) (c : C) :
    ∃ more t, (machine C α).Steps s more t ∧
      Machine.observed lossyCall more = [.take] ∧ t.AtRest := by
  have atHead : s.queue.head = some item := sound.shaped.holds.1
  obtain ⟨q', unlinked, -, items, -⟩ := Queue.pop_shaped sound.shaped
  obtain ⟨record, present⟩ := sound.shaped.holds.live List.mem_cons_self
  obtain ⟨t, popped⟩ : ∃ t, s.popStep c = some t := by
    simp [WorkQueue.popStep, atRest.1 c, Phase.testing, atHead, unlinked, present]
  obtain ⟨-, ⟨empty, -⟩ | ⟨item', queue, record', unlinked', present', rfl⟩⟩ := popStep_cases popped
  · rw [atHead] at empty
    cases empty
  rw [unlinked, Option.some.injEq, Prod.mk.injEq] at unlinked'
  obtain ⟨rfl, rfl⟩ := unlinked'
  obtain ⟨⟨value, u⟩, returned⟩ : ∃ result, WorkQueue.returnStep { s with
      queue := q'
      phase := Function.update s.phase c (.holding item)
      delivered := s.delivered ++ [⟨c, record'.value, s.occurrence item⟩] } c = some result := by
    simp [WorkQueue.returnStep, queuePopReturn, items, present]
  have outside : ∀ d, u.phase d = .outside := by
    obtain ⟨_, _, -, -, same⟩ := returnStep_cases returned
    cases same
    intro d
    by_cases here : d = c <;> simp [here, atRest.1]
  have first : (machine C α).Steps s [(s, .pop c)] _ := .single popped
  have second : (machine C α).step _ (.return c) = some u :=
    Option.map_eq_some_iff.2 ⟨(value, u), returned, rfl⟩
  have steps := first.step second
  refine ⟨_, u, steps, ?_, atRest.steps sound steps outside⟩
  simp [Machine.observed, lossyCall, atHead]

theorem realizes_lossy [Nonempty C] : Machine.Realizes (machine C α) (LossyQueue.machine α)
    lossyCall fun s m => s.Represents m ∧ s.AtRest where
  start := ⟨start_represents, fun _ => rfl, Store.HasRoom.empty_hasRoom⟩
  step := by
    rintro s m b m' ⟨represents, atRest⟩ taken
    have played : ∃ more t, (machine C α).Steps s more t ∧
        Machine.observed lossyCall more = [b] ∧ t.AtRest := by
      obtain ⟨l, sound, pending, -, -⟩ := represents
      cases b with
      | put value => exact atRest.plays_put sound value
      | take =>
          cases l with
          | nil =>
              have empty : m.pending = [] := pending
              simp [LossyQueue.machine, LossyQueue.step, LossyQueue.take, empty] at taken
          | cons item rest => exact atRest.plays_take sound (Classical.arbitrary C)
    obtain ⟨more, t, steps, seen, atRest'⟩ := played
    obtain ⟨past', m'', done, represents'⟩ := simulates_lossy.steps represents steps
    rw [seen] at done
    obtain ⟨-, rfl⟩ : [(m, b)] = past' ∧ m' = m'' := by simpa [Machine.execFrom, taken] using done
    exact ⟨more, t, steps, seen, represents', atRest'⟩

/-- **The queue is the lossy queue**: for any sequence of enqueues and pops, in the
order of their critical sections, the values the pops deliver in some run are those the
lossy queue hands out on it, and in every run they are. -/
theorem behaviours_iff [Nonempty C] (calls : List (LossyCall α)) (values : List α) :
    (∃ past s, (machine C α).Run past s ∧ Machine.observed lossyCall past = calls ∧
        s.delivered.map Delivery.value = values) ↔
      ∃ past m, (LossyQueue.machine α).exec calls = some (past, m) ∧ m.taken = values := by
  constructor
  · rintro ⟨past, s, run, rfl, rfl⟩
    obtain ⟨past', m, done, l, -, -, -, taken⟩ := simulates_lossy.run run
    exact ⟨past', m, done, taken⟩
  · rintro ⟨past', m, done, rfl⟩
    obtain ⟨past, s, run, seen, represents, -⟩ := realizes_lossy.run (M := machine C α) done
    obtain ⟨past'', m', done', l, -, -, -, taken⟩ := simulates_lossy.run run
    rw [seen, done] at done'
    cases done'
    exact ⟨past, s, run, seen, taken.symm⟩

/-- Put while the second of two is left alone, the third value is lost. -/
theorem behaviours_two_taken :
    ∃ past s, (machine Unit Nat).Run past s ∧
      Machine.observed lossyCall past = [.put 7, .put 8, .take, .put 9, .take] ∧
      s.delivered.map Delivery.value = [7, 8] :=
  (behaviours_iff [.put 7, .put 8, .take, .put 9, .take] [7, 8]).2 ⟨_, _, rfl, rfl⟩

end WorkQueue

end Cfutures
