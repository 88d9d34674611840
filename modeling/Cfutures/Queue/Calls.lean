/-
# Queue.Calls -- whole calls of `queue_enqueue` and `queue_pop`

One thread's view of a queue: a sequence of undisturbed calls, each with all its
reads and writes, and the item `queue_pop` returns released before the next call.
`outstanding` is the record of the calls, the items enqueued and not yet popped.

The store has exactly the outstanding items (`InOrder`), `head` and `tail` refer
to outstanding items only, and neither operation ever touches any other
(`calls_touch_outstanding`).
-/
import Cfutures.Queue.Shape
import Cfutures.Theory.Machine

namespace Cfutures

open Cfutures.Theory

set_option autoImplicit false

universe u

inductive QueueCall (α : Type u) where
  | enqueue (item : Addr) (value : α)
  | pop

structure CalledQueue (α : Type u) where
  queue : Queue α
  outstanding : List Addr

namespace CalledQueue

variable {α : Type u}

def start : CalledQueue α := { queue := queueNew, outstanding := [] }

/-- `malloc` returns an address that no item of the store has. -/
def enqueueStep (s : CalledQueue α) (item : Addr) (value : α) : Option (CalledQueue α) :=
  if (s.queue.items item).isNone then
    (queueEnqueue s.queue item value).map fun queue =>
      { queue := queue, outstanding := s.outstanding ++ [item] }
  else none

/-- The item popped is the one `head` denoted.  A call on an empty queue waits. -/
def popStep (s : CalledQueue α) : Option (CalledQueue α) :=
  s.queue.head.bind fun item =>
    (queuePop s.queue).map fun popped =>
      { queue := popped.2, outstanding := s.outstanding.erase item }

def step (s : CalledQueue α) : QueueCall α → Option (CalledQueue α)
  | .enqueue item value => s.enqueueStep item value
  | .pop => s.popStep

def machine (α : Type u) : Machine (CalledQueue α) (QueueCall α) where
  start := start
  step := step

variable {s t : CalledQueue α} {l : List Addr} {item : Addr} {value : α}
variable {past : List (CalledQueue α × QueueCall α)}

/-- The list is in one of its shapes, and the store has the outstanding items. -/
structure InOrder (s : CalledQueue α) (l : List Addr) : Prop where
  shaped : s.queue.Shaped l
  stored : ∀ a, (s.queue.items a).isSome = true ↔ a ∈ s.outstanding
  once : s.outstanding.Nodup

theorem start_inOrder : (start : CalledQueue α).InOrder [] where
  shaped := Queue.queueNew_shaped
  stored a := by simp [start, queueNew]
  once := List.nodup_nil

theorem InOrder.enqueueStep (inOrder : s.InOrder l) (stepped : s.enqueueStep item value = some t) :
    ∃ m, t.InOrder m := by
  simp only [CalledQueue.enqueueStep, Option.isNone_iff_eq_none, Option.ite_none_right_eq_some,
    Option.map_eq_some_iff] at stepped
  obtain ⟨fresh, queue, linked, rfl⟩ := stepped
  obtain ⟨items, -⟩ := Queue.enqueue_fields inOrder.shaped fresh linked
  have notYet : item ∉ s.outstanding := by
    intro member
    have present := (inOrder.stored item).2 member
    rw [fresh] at present
    cases present
  have stored : ∀ a, (queue.items a).isSome = true ↔ a ∈ s.outstanding ++ [item] := by
    intro a
    rw [items]
    by_cases new : a = item
    · simp [new, Queue.itemsAfterEnqueue_item]
    · have values := Queue.itemsAfterEnqueue_value s.queue value new
      have same := congrArg Option.isSome values
      rw [Option.isSome_map, Option.isSome_map] at same
      simp [same, inOrder.stored, new]
  have once : (s.outstanding ++ [item]).Nodup :=
    List.nodup_append.2 ⟨inOrder.once, by simp, by
      rintro a member b rest rfl
      exact notYet (List.mem_singleton.1 rest ▸ member)⟩
  rcases inOrder.shaped.tail with anchored | adrift
  · exact ⟨_, (Queue.enqueue_anchored inOrder.shaped anchored fresh linked).1, stored, once⟩
  · exact ⟨l, (Queue.enqueue_adrift inOrder.shaped adrift fresh linked).1, stored, once⟩

theorem InOrder.popStep (inOrder : s.InOrder l) (stepped : s.popStep = some t) :
    ∃ m, t.InOrder m := by
  simp only [CalledQueue.popStep, Option.bind_eq_some_iff, Option.map_eq_some_iff] at stepped
  obtain ⟨item, atHead, popped, done, rfl⟩ := stepped
  obtain ⟨rest, rfl⟩ := inOrder.shaped.holds.of_head atHead
  obtain ⟨record, queue, -, done', shaped, items⟩ := Queue.queuePop_shaped inOrder.shaped
  rw [done, Option.some.injEq] at done'
  subst done'
  refine ⟨rest, shaped, ?_, inOrder.once.erase item⟩
  intro a
  rw [items, inOrder.once.mem_erase_iff, ← inOrder.stored]
  by_cases same : a = item
  · simp [same]
  · simp [Store.free_ne _ same, same]

theorem InOrder.step (inOrder : s.InOrder l) {a : QueueCall α} (stepped : s.step a = some t) :
    ∃ m, t.InOrder m := by
  cases a with
  | enqueue item value => exact inOrder.enqueueStep stepped
  | pop => exact inOrder.popStep stepped

theorem run_inOrder (run : (machine α).Run past s) : ∃ l, s.InOrder l :=
  Machine.Run.invariant (I := fun s : CalledQueue α => ∃ l, s.InOrder l) ⟨[], start_inOrder⟩
    (fun _ _ _ ⟨_, inOrder⟩ stepped => inOrder.step stepped) run

/-- In order, a call is only ever undefined where it waits or `malloc` would have
returned an item in use. -/
theorem InOrder.defined (inOrder : s.InOrder l) :
    (∀ item value, s.queue.items item = none → (queueEnqueue s.queue item value).isSome = true) ∧
      (s.queue.head ≠ none → (queuePop s.queue).isSome = true) := by
  refine ⟨?_, ?_⟩
  · intro item value fresh
    obtain ⟨queue, linked⟩ := Queue.enqueue_defined inOrder.shaped fresh value
    simp [linked]
  · intro busy
    obtain ⟨item, rest, rfl⟩ :=
      List.exists_cons_of_ne_nil ((Chain.ne_nil_iff inOrder.shaped.holds).2 busy)
    obtain ⟨_, _, -, done, -⟩ := Queue.queuePop_shaped inOrder.shaped
    simp [done]

/-- **Enqueue and pop never touch a released item**: `head`, `tail` and the chain
from `head` are outstanding items, the chain ends and repeats none, `head` is NULL
only if `tail` is, and both operations are defined. -/
theorem calls_touch_outstanding (run : (machine α).Run past s) :
    (∀ a, s.queue.head = some a ∨ s.queue.tail = some a → a ∈ s.outstanding) ∧
      (s.queue.head = none → s.queue.tail = none) ∧
      (∃ l, s.queue.Holds l ∧ l.Nodup ∧ ∀ a ∈ l, a ∈ s.outstanding) ∧
      (∀ item value, s.queue.items item = none →
        (queueEnqueue s.queue item value).isSome = true) ∧
      (s.queue.head ≠ none → (queuePop s.queue).isSome = true) := by
  obtain ⟨l, inOrder⟩ := run_inOrder run
  have live : ∀ a ∈ l, a ∈ s.outstanding := by
    intro a member
    obtain ⟨record, present⟩ := inOrder.shaped.holds.live member
    exact (inOrder.stored a).1 (by simp [present])
  refine ⟨?ends, inOrder.shaped.tail_of_head_null,
    ⟨l, inOrder.shaped.holds, Chain.nodup inOrder.shaped.holds, live⟩, inOrder.defined⟩
  case ends =>
    rintro a (atHead | atTail)
    · exact live a (List.mem_of_mem_head? (inOrder.shaped.holds.head_eq ▸ atHead))
    · obtain ⟨record, present⟩ := inOrder.shaped.tailLive a atTail
      exact (inOrder.stored a).1 (by simp [present])

/-- Three items in, two out, a fourth in: the address of the first is used again. -/
theorem calls_touch_outstanding_again :
    ∃ past s, (machine Nat).Run past s ∧ s.outstanding = [2, 0] ∧
      (s.queue.head ≠ none → (queuePop s.queue).isSome = true) := by
  obtain ⟨past, s, run, seen⟩ := Machine.exists_run_of_exec (M := machine Nat)
    (p := fun r => decide (r.2.outstanding = [2, 0]))
    [.enqueue 0 7, .enqueue 1 8, .enqueue 2 9, .pop, .pop, .enqueue 0 10] (by decide)
  exact ⟨past, s, run, of_decide_eq_true seen, (calls_touch_outstanding run).2.2.2.2⟩

end CalledQueue

end Cfutures
