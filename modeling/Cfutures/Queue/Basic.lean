/-
# Queue.Basic -- the linked list of queue.c

`struct _queue_t` with its items in an explicit store, and the code of
`queue_new`, `queue_enqueue` and `queue_pop`.  The mutex and the condition
variable are not fields here: a critical section is one step of the machine in
`Queue.WorkQueue`, which also says who is asleep on `wait_cv`.

`queue_pop` is two functions, because its mutex is released in between:
`queuePopSection` is the critical section once `head` is non-NULL, and
`queuePopReturn` reads the unlinked item's value and frees it.  Both, and
`queueEnqueue`, are undefined where the C code would read or write an item that
is not in the store.
-/
import Cfutures.Theory.Chain

namespace Cfutures

open Cfutures.Theory

set_option autoImplicit false

universe u

abbrev Addr := Nat

/-- A C pointer: `none` is NULL. -/
abbrev Ptr := Option Addr

/-- `struct _item_t`. -/
structure Item (α : Type u) where
  next : Ptr
  prev : Ptr
  value : α

/-- `struct _queue_t`: the two ends of the list, and the store its items are in. -/
structure Queue (α : Type u) where
  head : Ptr
  tail : Ptr
  items : Store Addr (Item α)

variable {α : Type u}

def queueNew : Queue α := { head := none, tail := none, items := Store.empty }

/-- The critical section of `queue_enqueue`, with `item` the address `malloc`
returned before it. -/
def queueEnqueue (self : Queue α) (item : Addr) (value : α) : Option (Queue α) :=
  let items := self.items.put item { next := none, prev := self.tail, value := value }
  -- if (self->tail != NULL) self->tail->next = item
  let linked :=
    match self.tail with
    | some tail => items.modify tail fun last => { last with next := some item }
    | none => some items
  -- if (self->head == NULL) self->head = item
  let head :=
    match self.head with
    | none => some item
    | some head => some head
  linked.map fun items => { head := head, tail := some item, items := items }

/-- The critical section of `queue_pop` after its wait loop: undefined while
`head` is NULL, otherwise the item that is unlinked and the queue without it. -/
def queuePopSection (self : Queue α) : Option (Addr × Queue α) :=
  match self.head with
  | none => none
  | some item =>
      match self.items item with
      | none => none
      | some record =>
          match record.next with
          | none => some (item, { self with head := none, tail := none })
          | some next =>
              match self.items next with
              | none => none
              | some newHead =>
                  -- if (self->head->next == NULL) self->tail = NULL
                  if newHead.next = none then
                    some (item, { self with head := some next, tail := none })
                  else
                    some (item, { self with head := some next })

/-- `queue_pop` after its critical section: read the value, free the item. -/
def queuePopReturn (self : Queue α) (item : Addr) : Option (α × Queue α) :=
  (self.items item).map fun record =>
    (record.value, { self with items := self.items.free item })

/-- One undisturbed call of `queue_pop` on a queue that is not empty. -/
def queuePop (self : Queue α) : Option (α × Queue α) :=
  (queuePopSection self).bind fun taken => queuePopReturn taken.2 taken.1

namespace Queue

/-- `q.Holds l`: the items found by following `next` from `head` are those at `l`. -/
def Holds (q : Queue α) (l : List Addr) : Prop := Chain Item.next q.items q.head l

theorem Holds.unique {q : Queue α} {l m : List Addr} (first : q.Holds l) (second : q.Holds m) :
    l = m :=
  Chain.unique first second

end Queue

/-! ## What each operation computes, on a list that is in order -/

namespace Queue

/-- Every address the queue would write through is in the store. -/
def TailLive (q : Queue α) : Prop := ∀ t, q.tail = some t → ∃ record, q.items t = some record

/-- The store after an enqueue: the new item, the old tail's link, nothing else. -/
def itemsAfterEnqueue (q : Queue α) (item : Addr) (value : α) : Store Addr (Item α) := fun a =>
  if a = item then some { next := none, prev := q.tail, value := value }
  else if q.tail = some a then (q.items a).map fun last => { last with next := some item }
  else q.items a

end Queue

theorem queueEnqueue_eq {q : Queue α} {item : Addr} (value : α) (fresh : q.items item = none)
    (tailLive : q.TailLive) :
    queueEnqueue q item value =
      some { head := some (q.head.getD item), tail := some item,
             items := q.itemsAfterEnqueue item value } := by
  have head : (match q.head with
      | none => some item
      | some head => some head) = some (q.head.getD item) := by
    cases q.head <;> rfl
  unfold queueEnqueue
  rw [head]
  cases atTail : q.tail with
  | none =>
      simp only [Option.map_some, Option.some.injEq, Queue.mk.injEq, true_and]
      funext a
      simp [Queue.itemsAfterEnqueue, Store.put_apply, atTail]
  | some t =>
      obtain ⟨record, present⟩ := tailLive t atTail
      have ne : t ≠ item := Store.ne_of_absent present fresh
      simp only [Store.modify, Store.put_ne _ _ ne, present, Option.map_some, Option.some.injEq,
        Queue.mk.injEq, true_and]
      funext a
      by_cases isTail : a = t
      · subst isTail
        simp [Queue.itemsAfterEnqueue, ne, atTail, present]
      · simp [Queue.itemsAfterEnqueue, Store.put_apply, isTail, atTail, Ne.symm isTail]

theorem queuePopSection_one {q : Queue α} {item : Addr} (holds : q.Holds [item]) :
    queuePopSection q = some (item, { q with head := none, tail := none }) := by
  obtain ⟨head, record, present, last⟩ := holds
  have link : record.next = none := last
  simp [queuePopSection, head, present, link]

theorem queuePopSection_more {q : Queue α} {item next : Addr} {rest : List Addr}
    (holds : q.Holds (item :: next :: rest)) :
    queuePopSection q =
      some (item, { q with head := some next, tail := if rest = [] then none else q.tail }) := by
  obtain ⟨head, record, present, link, newHead, present', onward⟩ := holds
  have atEnd : newHead.next = none ↔ rest = [] := by
    have := Chain.ne_nil_iff onward
    tauto
  by_cases two : rest = []
  · simp [queuePopSection, head, present, link, present', atEnd, two]
  · simp [queuePopSection, head, present, link, present', atEnd, two]

theorem queuePopReturn_eq {q : Queue α} {item : Addr} {record : Item α}
    (present : q.items item = some record) :
    queuePopReturn q item = some (record.value, { q with items := q.items.free item }) := by
  simp [queuePopReturn, present]

end Cfutures
