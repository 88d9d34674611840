/-
# Queue.Sound -- the invariant of the queue and its threads

`Sound s l`: the list is in one of its two shapes with chain `l`, an item a
consumer holds is off the chain and not at `tail`, no two consumers hold one item,
and the items delivered so far followed by the items on the chain are, in this
order, among the items enqueued so far (`order`).  Items are named by the number
of their enqueue, so `order` speaks of occurrences and not of values.

Each action has one lemma: that it keeps `Sound`, for which chain, and what it
does to the record.  `run_sound` is the invariant of every run.
-/
import Cfutures.Queue.WorkQueue

namespace Cfutures

open Cfutures.Theory

set_option autoImplicit false

universe u v

namespace WorkQueue

set_option linter.unusedSectionVars false

variable {C : Type u} {α : Type v} [Fintype C] [DecidableEq C]

/-- The item at an address, named by its value and the number of its enqueue. -/
def entry (s : WorkQueue C α) (a : Addr) : Option (α × Nat) :=
  (s.queue.items a).map fun record => (record.value, s.occurrence a)

/-- The items on a chain. -/
def entries (s : WorkQueue C α) (l : List Addr) : List (α × Nat) := l.filterMap s.entry

/-- The latest item a consumer has taken. -/
def lastTo (s : WorkQueue C α) (c : C) : Option (Delivery C α) :=
  (s.delivered.filter fun d => decide (d.consumer = c)).getLast?

structure Sound (s : WorkQueue C α) (l : List Addr) : Prop where
  shaped : s.queue.Shaped l
  held : ∀ c item, s.phase c = .holding item →
    item ∉ l ∧ s.queue.tail ≠ some item ∧ ∃ record, s.queue.items item = some record ∧
      s.lastTo c = some ⟨c, record.value, s.occurrence item⟩
  apart : ∀ c d item, s.phase c = .holding item → s.phase d = .holding item → c = d
  order : (s.delivered.map Delivery.entry ++ s.entries l).Sublist s.enqueued.zipIdx

variable {s t : WorkQueue C α} {l : List Addr} {item : Addr} {value : α} {c : C}

theorem entries_congr (same : ∀ a ∈ l, t.entry a = s.entry a) : t.entries l = s.entries l :=
  List.filterMap_congr same

theorem Sound.entries_length (sound : s.Sound l) : (s.entries l).length = l.length := by
  have live : ∀ a ∈ l, (s.entry a).isSome := by
    intro a member
    obtain ⟨record, present⟩ := sound.shaped.holds.live member
    simp [entry, present]
  clear sound
  induction l with
  | nil => rfl
  | cons a l ih =>
      obtain ⟨e, here⟩ := Option.isSome_iff_exists.1 (live a (by simp))
      have rest := ih fun b member => live b (List.mem_cons_of_mem a member)
      simpa [entries, here] using rest

theorem Sound.account (sound : s.Sound l) :
    s.delivered.length + l.length ≤ s.enqueued.length := by
  have := sound.order.length_le
  simpa [sound.entries_length] using this

theorem start_sound : (start : WorkQueue C α).Sound [] where
  shaped := Queue.queueNew_shaped
  held := by simp [start]
  apart := by simp [start]
  order := by simp [start, entries]

/-! ## One step -/

theorem condSignal_holding {phase phase' : C → Phase} {wake : Option C}
    (signalled : condSignal phase wake = some phase') :
    phase' c = .holding item ↔ phase c = .holding item := by
  rcases condSignal_apply signalled c with same | ⟨sleeping, woken⟩
  · rw [same]
  · simp [sleeping, woken]

/-- A consumer that moves, but not to hold an item. -/
theorem holding_of_update {phase : C → Phase} {after : Phase}
    (notHolding : ∀ a, after ≠ .holding a) {d : C} {a : Addr}
    (holding : Function.update phase c after d = .holding a) : phase d = .holding a := by
  by_cases same : d = c
  · rw [same, Function.update_self] at holding
    exact absurd holding (notHolding a)
  · rwa [Function.update_of_ne same] at holding

/-- Steps that only move consumers around keep the invariant, as long as nobody
comes to hold an item that way. -/
theorem Sound.of_phase (sound : s.Sound l) {phase : C → Phase}
    (same : ∀ c item, phase c = .holding item → s.phase c = .holding item) :
    Sound { s with phase := phase } l where
  shaped := sound.shaped
  held c item holding := sound.held c item (same c item holding)
  apart c d item first second := sound.apart c d item (same c item first) (same d item second)
  order := sound.order

/-- Items other than the new one keep their value and their number. -/
theorem Sound.enqueueStep_entry {wake : Option C} (sound : s.Sound l)
    (stepped : s.enqueueStep item value wake = some t) :
    (∀ a, a ≠ item → t.entry a = s.entry a) ∧
      t.entry item = some (value, s.enqueued.length) := by
  obtain ⟨fresh, queue, phase, linked, signalled, rfl⟩ := enqueueStep_cases stepped
  obtain ⟨items, -⟩ := Queue.enqueue_fields sound.shaped fresh linked
  refine ⟨?_, ?_⟩
  · intro a ne
    have values := Queue.itemsAfterEnqueue_value s.queue value ne
    rw [← items] at values
    cases before : s.queue.items a <;> cases after : queue.items a <;>
      simp_all [entry]
  · simp [entry, items, Queue.itemsAfterEnqueue_item]

theorem Sound.enqueueStep {wake : Option C} (sound : s.Sound l)
    (stepped : s.enqueueStep item value wake = some t) :
    t.enqueued.length = s.enqueued.length + 1 ∧ t.delivered = s.delivered ∧
      ((s.queue.Anchored l ∧ t.Sound (l ++ [item]) ∧ t.queue.Anchored (l ++ [item])) ∨
        (s.queue.Adrift l ∧ t.Sound l ∧ t.queue.tail = some item ∧ t.queue.Adrift l)) := by
  have entries := sound.enqueueStep_entry stepped
  obtain ⟨fresh, queue, phase, linked, signalled, rfl⟩ := enqueueStep_cases stepped
  obtain ⟨entryKept, entryNew⟩ := entries
  refine ⟨by simp, rfl, ?_⟩
  obtain ⟨items, tail⟩ := Queue.enqueue_fields sound.shaped fresh linked
  have notOn : ∀ a ∈ l, a ≠ item := Chain.ne_of_absent sound.shaped.holds fresh
  have held : ∀ c a, phase c = .holding a →
      a ∉ l ∧ a ≠ item ∧ ∃ record, queue.items a = some record ∧
        s.lastTo c = some ⟨c, record.value, s.occurrence a⟩ := by
    intro c a holding
    obtain ⟨off, notTail, record, present, last⟩ :=
      sound.held c a ((condSignal_holding signalled).1 holding)
    have ne : a ≠ item := Store.ne_of_absent present fresh
    refine ⟨off, ne, record, ?_, last⟩
    rw [items, Queue.itemsAfterEnqueue_other s.queue value ne notTail, present]
  have apart : ∀ c d a, phase c = .holding a → phase d = .holding a → c = d := by
    intro c d a first second
    exact sound.apart c d a ((condSignal_holding signalled).1 first)
      ((condSignal_holding signalled).1 second)
  have numbered : (s.enqueued ++ [value]).zipIdx =
      s.enqueued.zipIdx ++ [(value, s.enqueued.length)] := by
    simp [List.zipIdx_append]
  rcases sound.shaped.tail with anchored | adrift
  · left
    obtain ⟨shaped, anchored'⟩ := Queue.enqueue_anchored sound.shaped anchored fresh linked
    refine ⟨anchored, ⟨shaped, ?held, apart, ?order⟩, anchored'⟩
    case held =>
      intro c a holding
      obtain ⟨off, ne, record, present, last⟩ := held c a holding
      refine ⟨by simp [off, ne], ?_, record, present, ?_⟩
      · rw [tail]
        exact fun same => ne (Option.some.inj same).symm
      · simpa [lastTo, ne] using last
    case order =>
      have added : WorkQueue.entries { s with
            queue := queue, phase := phase
            occurrence := Function.update s.occurrence item s.enqueued.length
            enqueued := s.enqueued ++ [value] } (l ++ [item]) =
          s.entries l ++ [(value, s.enqueued.length)] := by
        rw [WorkQueue.entries, List.filterMap_append]
        congr 1
        · exact entries_congr fun a member => entryKept a (notOn a member)
        · simp [entryNew]
      rw [added, numbered, ← List.append_assoc]
      exact sound.order.append (List.Sublist.refl _)
  · right
    obtain ⟨shaped, adrift', tail'⟩ := Queue.enqueue_adrift sound.shaped adrift fresh linked
    refine ⟨adrift, ⟨shaped, ?held, apart, ?order⟩, tail', adrift'⟩
    case held =>
      intro c a holding
      obtain ⟨off, ne, record, present, last⟩ := held c a holding
      refine ⟨off, ?_, record, present, ?_⟩
      · rw [tail]
        exact fun same => ne (Option.some.inj same).symm
      · simpa [lastTo, ne] using last
    case order =>
      rw [entries_congr fun a member => entryKept a (notOn a member), numbered]
      exact sound.order.trans (List.sublist_append_left _ _)

theorem Sound.popStep (sound : s.Sound l) (stepped : s.popStep c = some t) :
    t.enqueued = s.enqueued ∧
      ((s.queue.head = none ∧ t.queue = s.queue ∧ t.delivered = s.delivered ∧ t.Sound l) ∨
        ∃ item rest, l = item :: rest ∧ t.phase c = .holding item ∧
          t.delivered.length = s.delivered.length + 1 ∧ t.Sound rest ∧
          (t.queue.Anchored rest ∨ t.queue.tail = none)) := by
  obtain ⟨testing, ⟨empty, rfl⟩ | ⟨item, queue, record, unlinked, present, rfl⟩⟩ :=
    popStep_cases stepped
  · exact ⟨rfl, Or.inl ⟨empty, rfl, rfl, sound.of_phase fun _ _ => holding_of_update (by simp)⟩⟩
  · refine ⟨rfl, Or.inr ?_⟩
    obtain ⟨rest, rfl, shaped, items, tail, notTail⟩ := Queue.pop_cases sound.shaped unlinked
    have nodup : (item :: rest).Nodup := Chain.nodup sound.shaped.holds
    have offRest : item ∉ rest := (List.nodup_cons.1 nodup).1
    refine ⟨item, rest, rfl, by simp, by simp, ⟨shaped, ?held, ?apart, ?order⟩, tail⟩
    case held =>
      intro d a holding
      by_cases same : d = c
      · subst same
        obtain rfl : item = a := by simpa using holding
        exact ⟨offRest, notTail, record, by rw [items, present], by simp [lastTo]⟩
      · have holding' : s.phase d = .holding a := by simpa [same] using holding
        obtain ⟨off, -, record', present', last⟩ := sound.held d a holding'
        refine ⟨fun member => off (List.mem_cons_of_mem _ member), ?_, record',
          by rw [items, present'], by simpa [lastTo, Ne.symm same] using last⟩
        rcases tail with anchored | noTail
        · intro atTail
          have member := List.mem_of_getLast? (anchored.symm.trans atTail)
          exact off (List.mem_cons_of_mem _ member)
        · simp [noTail]
    case apart =>
      intro d e a first second
      have notHeld : ∀ d, s.phase d ≠ .holding item := fun d holding =>
        (sound.held d item holding).1 (by simp)
      by_cases dc : d = c <;> by_cases ec : e = c
      · rw [dc, ec]
      · subst dc
        obtain rfl : item = a := by simpa using first
        exact absurd (by simpa [ec] using second) (notHeld e)
      · subst ec
        obtain rfl : item = a := by simpa using second
        exact absurd (by simpa [dc] using first) (notHeld d)
      · exact sound.apart d e a (by simpa [dc] using first) (by simpa [ec] using second)
    case order =>
      have here : s.entry item = some (record.value, s.occurrence item) := by
        simp [entry, present]
      have order := sound.order
      rw [entries, List.filterMap_cons, here] at order
      have kept : entries { s with
            queue := queue
            phase := Function.update s.phase c (.holding item)
            delivered := s.delivered ++ [⟨c, record.value, s.occurrence item⟩] } rest =
          s.entries rest :=
        entries_congr fun a _ => by simp [entry, items]
      rw [kept]
      simpa [Delivery.entry, entries] using order

theorem Sound.returnStep (sound : s.Sound l) {result : α × WorkQueue C α}
    (stepped : s.returnStep c = some result) :
    result.2.enqueued = s.enqueued ∧ result.2.delivered = s.delivered ∧
      result.2.queue.head = s.queue.head ∧ result.2.queue.tail = s.queue.tail ∧
      (∃ d, s.lastTo c = some d ∧ d.value = result.1) ∧ result.2.Sound l := by
  obtain ⟨item, record, holding, present, rfl⟩ := returnStep_cases stepped
  obtain ⟨off, notTail, record', present', last⟩ := sound.held c item holding
  rw [present, Option.some.injEq] at present'
  subst present'
  refine ⟨rfl, rfl, rfl, rfl, ⟨_, last, rfl⟩, ?_⟩
  have onChain : ∀ a ∈ l, s.queue.items.free item a = s.queue.items a := fun a member =>
    Store.free_ne _ fun same => off (same ▸ member)
  have outside : ∀ d a, Function.update s.phase c .outside d = Phase.holding a →
      s.phase d = .holding a ∧ a ≠ item := by
    intro d a held
    by_cases same : d = c
    · simp [same] at held
    · have held' : s.phase d = .holding a := by simpa [same] using held
      exact ⟨held', fun taken => same (sound.apart d c item (taken ▸ held') holding)⟩
  refine ⟨sound.shaped.free off notTail, ?held, ?apart, ?order⟩
  case held =>
    intro d a held
    obtain ⟨held', ne⟩ := outside d a held
    obtain ⟨off', notTail', record', present', last'⟩ := sound.held d a held'
    exact ⟨off', notTail', record', (Store.free_ne _ ne).trans present', last'⟩
  case apart =>
    intro d e a first second
    exact sound.apart d e a (outside d a first).1 (outside e a second).1
  case order =>
    rw [entries_congr (s := s) fun a member => by simp [entry, onChain a member]]
    exact sound.order

theorem Sound.spuriousStep (sound : s.Sound l) (stepped : s.spuriousStep c = some t) :
    t.queue = s.queue ∧ t.enqueued = s.enqueued ∧ t.delivered = s.delivered ∧ t.Sound l := by
  obtain ⟨-, rfl⟩ := spuriousStep_cases stepped
  exact ⟨rfl, rfl, rfl, sound.of_phase fun _ _ => holding_of_update (by simp)⟩

theorem Sound.cancelStep {heir : Option C} (sound : s.Sound l)
    (stepped : s.cancelStep c heir = some t) :
    t.queue = s.queue ∧ t.enqueued = s.enqueued ∧ t.delivered = s.delivered ∧ t.Sound l := by
  rcases cancelStep_cases stepped with ⟨-, phase, signalled, rfl⟩ | ⟨-, -, rfl⟩
  · exact ⟨rfl, rfl, rfl, sound.of_phase fun _ _ holding =>
      holding_of_update (by simp) ((condSignal_holding signalled).1 holding)⟩
  · exact ⟨rfl, rfl, rfl, sound.of_phase fun _ _ => holding_of_update (by simp)⟩

theorem Sound.step (sound : s.Sound l) {a : QueueAction C α} (stepped : s.step a = some t) :
    ∃ m, t.Sound m := by
  cases a with
  | enqueue item value wake =>
      obtain ⟨-, -, ⟨-, sound', -⟩ | ⟨-, sound', -⟩⟩ := sound.enqueueStep stepped
      · exact ⟨_, sound'⟩
      · exact ⟨_, sound'⟩
  | pop c =>
      obtain ⟨-, ⟨-, -, -, sound'⟩ | ⟨_, rest, -, -, -, sound', -⟩⟩ := sound.popStep stepped
      · exact ⟨_, sound'⟩
      · exact ⟨rest, sound'⟩
  | «return» c =>
      obtain ⟨result, returned, rfl⟩ := Option.map_eq_some_iff.1 stepped
      exact ⟨l, (sound.returnStep returned).2.2.2.2.2⟩
  | spurious c => exact ⟨l, (sound.spuriousStep stepped).2.2.2⟩
  | cancel c heir => exact ⟨l, (sound.cancelStep stepped).2.2.2⟩

theorem run_sound {past : List (WorkQueue C α × QueueAction C α)} (run : (machine C α).Run past s) :
    ∃ l, s.Sound l :=
  Machine.Run.invariant (I := fun s : WorkQueue C α => ∃ l, s.Sound l) ⟨[], start_sound⟩
    (fun _ _ _ ⟨_, sound⟩ stepped => sound.step stepped) run

end WorkQueue

end Cfutures
