/-
# Queue.Delivery -- what the pops deliver, and what they never will

* `delivered_in_enqueue_order`: deliveries are a subsequence of the enqueues,
  occurrence by occurrence, and a consumer is handed the value of its delivery.
* `nothing_lost_iff`: every item enqueued is delivered or still on the chain
  exactly in the runs that never enqueue while `head` is set and `tail` is NULL.
  `queue_pop` leaves the list so when one item remains on it (`pop_shaped`), and
  `item_lost_after_pop` is a run that loses an item to it.

`deficit` counts the items enqueued that are neither delivered nor on the chain.
It never decreases, and it grows exactly at an enqueue on an adrift list.
-/
import Cfutures.Queue.Sound
import Mathlib.Data.Multiset.Basic

namespace Cfutures

open Cfutures.Theory

set_option autoImplicit false

universe u v

namespace WorkQueue

set_option linter.unusedSectionVars false

variable {C : Type u} {α : Type v} [Fintype C] [DecidableEq C]
variable {s t : WorkQueue C α} {l : List Addr}
variable {past : List (WorkQueue C α × QueueAction C α)}

/-! ## Order and duplication -/

theorem Sound.delivered_sublist (sound : s.Sound l) :
    (s.delivered.map Delivery.entry).Sublist s.enqueued.zipIdx :=
  (List.sublist_append_left _ _).trans sound.order

/-- Numbers in a sublist of a numbered list increase. -/
theorem occurrences_increase {ds : List (Delivery C α)} {es : List α}
    (sub : (ds.map Delivery.entry).Sublist es.zipIdx) :
    (ds.map Delivery.occurrence).Pairwise (· < ·) := by
  have numbers := sub.map Prod.snd
  rw [List.map_map, List.zipIdx_map_snd] at numbers
  exact List.Pairwise.sublist numbers (List.pairwise_lt_range' ..)

/-- **Deliveries are a subsequence of the enqueues**: the items taken by pops, in
the order of their critical sections, are among the items enqueued, in the order
of theirs, and no enqueue is delivered twice.  What `queue_pop` returns is the
value of the calling consumer's latest delivery. -/
theorem delivered_in_enqueue_order (run : (machine C α).Run past s) :
    (s.delivered.map Delivery.entry).Sublist s.enqueued.zipIdx ∧
      (s.delivered.map Delivery.occurrence).Pairwise (· < ·) ∧
      (∀ d ∈ s.delivered, s.enqueued[d.occurrence]? = some d.value) ∧
      ∀ c value u, s.returnStep c = some (value, u) →
        ∃ d, s.lastTo c = some d ∧ d.value = value := by
  obtain ⟨l, sound⟩ := run_sound run
  refine ⟨sound.delivered_sublist, occurrences_increase sound.delivered_sublist, ?_, ?_⟩
  · intro d member
    have numbered : d.entry ∈ s.enqueued.zipIdx :=
      sound.delivered_sublist.subset (List.mem_map_of_mem member)
    exact List.mem_zipIdx_iff_getElem?.1 numbered
  · intro c value u returned
    obtain ⟨-, -, -, -, last, -⟩ := sound.returnStep returned
    exact last

/-- Two consumers, three items: the deliveries so far are items 0 and 1. -/
theorem two_consumers_in_order :
    ∃ past s, (machine (Fin 2) Nat).Run past s ∧ s.delivered.length = 2 ∧
      (s.delivered.map Delivery.occurrence).Pairwise (· < ·) := by
  obtain ⟨past, s, run, seen⟩ := Machine.exists_run_of_exec
    (M := machine (Fin 2) Nat) (p := fun r => r.2.delivered.length == 2)
    [.enqueue 0 7 none, .enqueue 1 7 none, .enqueue 2 8 none, .pop 1, .pop 0, .return 0] (by decide)
  exact ⟨past, s, run, by simpa using seen, (delivered_in_enqueue_order run).2.1⟩

/-! ## Loss -/

/-- The step is an enqueue while `head` is set and `tail` is NULL. -/
def severs (s : WorkQueue C α) : QueueAction C α → Bool
  | .enqueue .. => s.queue.head.isSome && s.queue.tail.isNone
  | _ => false

/-- Every item enqueued is delivered or found from `head`; and if some item is not
delivered yet, `head` is not NULL and the next pop takes one. -/
def NothingLost (s : WorkQueue C α) : Prop :=
  ∃ l, s.queue.Holds l ∧
    (s.enqueued.zipIdx : Multiset (α × Nat)) =
      (s.delivered.map Delivery.entry : Multiset (α × Nat)) + (s.entries l : Multiset (α × Nat)) ∧
    (s.delivered.length < s.enqueued.length →
      s.queue.head ≠ none ∧ (queuePopSection s.queue).isSome)

/-- Items enqueued that are neither delivered nor on the chain. -/
def deficit (s : WorkQueue C α) (l : List Addr) : Nat :=
  s.enqueued.length - (s.delivered.length + l.length)

theorem Sound.nothingLost_iff (sound : s.Sound l) : s.NothingLost ↔ s.deficit l = 0 := by
  have bound := sound.account
  constructor
  · rintro ⟨m, holds, items, -⟩
    obtain rfl := holds.unique sound.shaped.holds
    have sizes := congrArg Multiset.card items
    simp only [Multiset.coe_card, List.length_zipIdx, Multiset.card_add, List.length_map,
      sound.entries_length] at sizes
    simp [deficit, sizes]
  · intro none_
    have sizes : s.enqueued.length = s.delivered.length + l.length := by
      unfold deficit at none_
      omega
    have whole : s.delivered.map Delivery.entry ++ s.entries l = s.enqueued.zipIdx :=
      sound.order.eq_of_length (by simp [sizes, sound.entries_length])
    refine ⟨l, sound.shaped.holds, by rw [← whole, Multiset.coe_add], ?_⟩
    intro behind
    have busy : s.queue.head ≠ none :=
      (Chain.ne_nil_iff sound.shaped.holds).1 (List.ne_nil_of_length_pos (by omega))
    exact ⟨busy, (Queue.pop_defined_iff sound.shaped).2 busy⟩

/-- An enqueue severs the list, or keeps the deficit; once the list is adrift with
`tail` at a lost item the deficit is positive. -/
theorem Sound.deficit_step (sound : s.Sound l)
    (position : s.deficit l = 0 → s.queue.Anchored l ∨ s.queue.tail = none)
    {a : QueueAction C α} (stepped : s.step a = some t) :
    ∃ m, t.Sound m ∧ (t.deficit m = 0 ↔ s.deficit l = 0 ∧ s.severs a = false) ∧
      (t.deficit m = 0 → t.queue.Anchored m ∨ t.queue.tail = none) := by
  have bound := sound.account
  cases a with
  | enqueue item value wake =>
      obtain ⟨grown, same, ⟨anchored, sound', anchored'⟩ | ⟨adrift, sound', tail', -⟩⟩ :=
        sound.enqueueStep stepped
      · have safe : s.severs (.enqueue item value wake) = false := by
          rcases List.eq_nil_or_concat l with rfl | ⟨m, last, rfl⟩
          · have empty : s.queue.head = none := sound.shaped.holds
            simp [severs, empty]
          · have atTail : s.queue.tail = some last := by
              simpa [Queue.Anchored] using anchored
            simp [severs, atTail]
        refine ⟨_, sound', ?_, fun _ => Or.inl anchored'⟩
        simp only [deficit, grown, same, List.length_append, List.length_singleton, safe,
          and_true]
        omega
      · refine ⟨_, sound', ?_, ?_⟩
        · -- on an adrift list the deficit grows, and if it was zero the step severs
          have grows : t.deficit l ≠ 0 := by
            simp only [deficit, grown, same]
            omega
          simp only [grows, false_iff, not_and, Bool.not_eq_false]
          intro even
          obtain ⟨⟨only, rfl, notTail⟩, -⟩ := adrift
          have head : s.queue.head = some only := sound.shaped.holds.1
          rcases position even with anchored | noTail
          · exact absurd anchored notTail
          · simp [severs, head, noTail]
        · intro even
          simp only [deficit, grown, same] at even
          omega
  | pop c =>
      obtain ⟨same, ⟨-, queue, delivered, sound'⟩ | ⟨item, rest, rfl, -, more, sound', tail⟩⟩ :=
        sound.popStep stepped
      · refine ⟨_, sound', ?_, ?_⟩
        · simp [deficit, same, delivered, severs]
        · simpa [deficit, same, delivered, queue, Queue.Anchored] using position
      · refine ⟨_, sound', ?_, fun _ => tail⟩
        simp only [deficit, same, more, severs, List.length_cons, and_true]
        omega
  | «return» c =>
      obtain ⟨result, returned, rfl⟩ := Option.map_eq_some_iff.1 stepped
      obtain ⟨same, delivered, -, tail, -, sound'⟩ := sound.returnStep returned
      refine ⟨_, sound', by simp [deficit, same, delivered, severs], ?_⟩
      simpa [deficit, same, delivered, tail, Queue.Anchored] using position
  | spurious c =>
      obtain ⟨queue, same, delivered, sound'⟩ := sound.spuriousStep stepped
      refine ⟨_, sound', by simp [deficit, same, delivered, severs], ?_⟩
      simpa [deficit, same, delivered, queue, Queue.Anchored] using position
  | cancel c heir =>
      obtain ⟨queue, same, delivered, sound'⟩ := sound.cancelStep stepped
      refine ⟨_, sound', by simp [deficit, same, delivered, severs], ?_⟩
      simpa [deficit, same, delivered, queue, Queue.Anchored] using position

theorem run_deficit (run : (machine C α).Run past s) :
    ∃ l, s.Sound l ∧ (s.deficit l = 0 ↔ ∀ e ∈ past, e.1.severs e.2 = false) ∧
      (s.deficit l = 0 → s.queue.Anchored l ∨ s.queue.tail = none) := by
  induction run with
  | none => exact ⟨[], start_sound, by simp [deficit, machine, start], fun _ => Or.inl rfl⟩
  | step _ stepped ih =>
      obtain ⟨l, sound, even, position⟩ := ih
      obtain ⟨m, sound', even', position'⟩ := sound.deficit_step position stepped
      refine ⟨m, sound', ?_, position'⟩
      rw [even', even]
      simp only [List.mem_append, List.mem_singleton, or_imp, forall_and, forall_eq]

/-- **No item is lost exactly in the runs that never sever the list**: in every
reachable state, the items enqueued are those delivered and those found from
`head`, if and only if no enqueue so far ran while `head` was set and `tail` NULL. -/
theorem nothing_lost_iff (run : (machine C α).Run past s) :
    s.NothingLost ↔ ∀ e ∈ past, e.1.severs e.2 = false := by
  obtain ⟨l, sound, even, -⟩ := run_deficit run
  rw [sound.nothingLost_iff, even]

theorem nothing_lost_one_item :
    ∃ past s, (machine Unit Nat).Run past s ∧ s.delivered.length = 1 ∧ s.NothingLost := by
  obtain ⟨past, s, run, seen⟩ := Machine.exists_run_of_exec (M := machine Unit Nat)
    (p := fun r => r.2.delivered.length == 1 && r.1.all fun e => !e.1.severs e.2)
    [.enqueue 0 7 none, .enqueue 1 8 none, .enqueue 2 9 none, .pop (), .return ()] (by decide)
  simp only [Bool.and_eq_true, beq_iff_eq, List.all_eq_true, Bool.not_eq_true'] at seen
  exact ⟨past, s, run, seen.1, (nothing_lost_iff run).2 seen.2⟩

/-- Two items, one popped, a third enqueued: the third is neither delivered nor on
the chain, and `tail` is where it is. -/
theorem item_lost_after_pop :
    ∃ past s, (machine Unit Nat).Run past s ∧ ¬ s.NothingLost := by
  obtain ⟨past, s, run, seen⟩ := Machine.exists_run_of_exec (M := machine Unit Nat)
    (p := fun r => r.2.enqueued.length == 3 && r.2.delivered.length == 1 &&
      decide (r.2.queue.head = some 1) && decide ((r.2.queue.items 1).map Item.next = some none))
    [.enqueue 0 7 none, .enqueue 1 8 none, .pop (), .return (), .enqueue 2 9 none] (by decide)
  simp only [Bool.and_eq_true, beq_iff_eq, decide_eq_true_eq, Option.map_eq_some_iff] at seen
  obtain ⟨⟨⟨enqueued, delivered⟩, head⟩, record, present, last⟩ := seen
  refine ⟨past, s, run, ?_⟩
  rintro ⟨l, holds, items, -⟩
  have one : s.queue.Holds [1] := ⟨head, record, present, last⟩
  obtain rfl := holds.unique one
  have sizes := congrArg Multiset.card items
  have few : (s.entries [1]).length ≤ 1 := List.length_filterMap_le ..
  simp only [Multiset.coe_card, List.length_zipIdx, Multiset.card_add, List.length_map, enqueued,
    delivered] at sizes
  omega

end WorkQueue

end Cfutures
