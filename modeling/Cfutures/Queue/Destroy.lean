/-
# Queue.Destroy -- `queue_destroy` on every queue a sequence of calls can leave

The loop of `queue_destroy` releases an item and then reads the `next` of the item
it has released: the first turn already fails, so the walk is clean only when it
has no turn at all (`freeItems_done_iff`).  With `head` NULL it releases nothing,
which is right only if nothing is outstanding: an item the queue has lost stays.
-/
import Cfutures.Queue.Calls

namespace Cfutures

open Cfutures.Theory

set_option autoImplicit false

universe u

variable {α : Type u}

/-- How the loop of `queue_destroy` ends: with the items it has released, or at an
access to one that is not in the store. -/
inductive DestroyEnd (α : Type u) where
  | done (freed : List Addr) (items : Store Addr (Item α))
  | freesReleased (item : Addr)
  | readsReleased (item : Addr)

/-- `while (head) { free (head); head = head->next; }`, at most `turns` turns of it;
`none` when that was not enough. -/
def freeItems : Nat → Store Addr (Item α) → Ptr → List Addr → Option (DestroyEnd α)
  | _, items, none, freed => some (.done freed items)
  | 0, _, some _, _ => none
  | turns + 1, items, some head, freed =>
      match items head with
      | none => some (.freesReleased head)
      | some _ =>
          let items := items.free head
          match items head with
          | none => some (.readsReleased head)
          | some record => freeItems turns items record.next (freed ++ [head])

/-- `queue_destroy`, up to the release of the queue itself. -/
def queueDestroy (turns : Nat) (self : Queue α) : Option (DestroyEnd α) :=
  freeItems turns self.items self.head []

/-- The first turn of the loop reads the link of the item it has just released. -/
theorem freeItems_reads (turns : Nat) {items : Store Addr (Item α)} {head : Addr}
    {record : Item α} (present : items head = some record) (freed : List Addr) :
    freeItems (turns + 1) items (some head) freed = some (.readsReleased head) := by
  simp [freeItems, present]

/-- The loop ends without error exactly when it has nothing to do. -/
theorem freeItems_done_iff {turns : Nat} {items : Store Addr (Item α)} {head : Ptr}
    {freed out : List Addr} {left : Store Addr (Item α)} :
    freeItems turns items head freed = some (.done out left) ↔
      head = none ∧ out = freed ∧ left = items := by
  cases head with
  | none => simp [freeItems, eq_comm]
  | some head =>
      cases turns with
      | zero => simp [freeItems]
      | succ turns =>
          cases present : items head with
          | none => simp [freeItems, present]
          | some record => simp [freeItems_reads turns present]

/-- One turn decides: there is nothing to release, or the loop is at a released item. -/
theorem queueDestroy_one (self : Queue α) :
    (self.head = none ∧ queueDestroy 1 self = some (.done [] self.items)) ∨
      ∃ item, self.head = some item ∧ (queueDestroy 1 self = some (.freesReleased item) ∨
        queueDestroy 1 self = some (.readsReleased item)) := by
  cases atHead : self.head with
  | none => exact Or.inl ⟨rfl, freeItems_done_iff.2 ⟨atHead, rfl, rfl⟩⟩
  | some item =>
      refine Or.inr ⟨item, rfl, ?_⟩
      rw [queueDestroy, atHead]
      cases present : self.items item with
      | none => exact Or.inl (by simp [freeItems, present])
      | some record => exact Or.inr (freeItems_reads 0 present [])

namespace CalledQueue

variable {s : CalledQueue α} {past : List (CalledQueue α × QueueCall α)}

/-- `queue_destroy` ends without error, and has released every outstanding item once. -/
def DestroysCleanly (s : CalledQueue α) : Prop :=
  ∃ turns freed left, queueDestroy turns s.queue = some (.done freed left) ∧
    ∀ a ∈ s.outstanding, freed.count a = 1

theorem DestroysCleanly.nothing_left (clean : s.DestroysCleanly) :
    s.queue.head = none ∧ s.outstanding = [] := by
  obtain ⟨turns, freed, left, done, once⟩ := clean
  obtain ⟨empty, rfl, -⟩ := freeItems_done_iff.1 done
  refine ⟨empty, List.eq_nil_iff_forall_not_mem.2 ?_⟩
  intro a member
  have never := once a member
  simp at never

/-- **`queue_destroy` is clean exactly on a queue with nothing outstanding**: every
item enqueued has been popped. -/
theorem destroysCleanly_iff (run : (machine α).Run past s) :
    s.DestroysCleanly ↔ s.outstanding = [] := by
  obtain ⟨l, inOrder⟩ := run_inOrder run
  refine ⟨fun clean => clean.nothing_left.2, ?_⟩
  intro nothing
  have empty : s.queue.head = none := by
    by_contra busy
    obtain ⟨a, atHead⟩ := Option.ne_none_iff_exists'.1 busy
    obtain ⟨rest, rfl⟩ := inOrder.shaped.holds.of_head atHead
    obtain ⟨record, present⟩ := inOrder.shaped.holds.live (List.mem_cons_self ..)
    have member := (inOrder.stored a).1 (by simp [present])
    rw [nothing] at member
    cases member
  exact ⟨0, [], s.queue.items, freeItems_done_iff.2 ⟨empty, rfl, rfl⟩, by simp [nothing]⟩

/-- Two items in, both out, and the queue destroyed. -/
theorem destroysCleanly_drained :
    ∃ past s, (machine Nat).Run past s ∧ past.length = 4 ∧ s.DestroysCleanly := by
  obtain ⟨past, s, run, seen⟩ := Machine.exists_run_of_exec (M := machine Nat)
    (p := fun r => decide (r.1.length = 4) && decide (r.2.outstanding = []))
    [.enqueue 0 7, .enqueue 1 8, .pop, .pop] (by decide)
  simp only [Bool.and_eq_true, decide_eq_true_eq] at seen
  exact ⟨past, s, run, seen.1, (destroysCleanly_iff run).2 seen.2⟩

/-- One item enqueued: `queue_destroy` reads its link after releasing it.  Three with
a pop in between, and the rest popped: it releases nothing, and one is left. -/
theorem destroy_reads_released :
    (∃ past s, (machine Nat).Run past s ∧ queueDestroy 1 s.queue = some (.readsReleased 0) ∧
        ¬ s.DestroysCleanly) ∧
      ∃ past s, (machine Nat).Run past s ∧ s.queue.head = none ∧ s.outstanding = [2] ∧
        ¬ s.DestroysCleanly := by
  constructor
  · obtain ⟨past, s, run, seen⟩ := Machine.exists_run_of_exec (M := machine Nat)
      (p := fun r => decide (r.2.queue.head = some 0) && (r.2.queue.items 0).isSome)
      [.enqueue 0 7] (by decide)
    simp only [Bool.and_eq_true, decide_eq_true_eq] at seen
    obtain ⟨busy, live⟩ := seen
    obtain ⟨record, present⟩ := Option.isSome_iff_exists.1 live
    refine ⟨past, s, run, ?_, ?_⟩
    · rw [queueDestroy, busy]
      exact freeItems_reads 0 present []
    · intro clean
      rw [clean.nothing_left.1] at busy
      cases busy
  · obtain ⟨past, s, run, seen⟩ := Machine.exists_run_of_exec (M := machine Nat)
      (p := fun r => decide (r.2.queue.head = none) && decide (r.2.outstanding = [2]))
      [.enqueue 0 7, .enqueue 1 8, .pop, .enqueue 2 9, .pop] (by decide)
    simp only [Bool.and_eq_true, decide_eq_true_eq] at seen
    refine ⟨past, s, run, seen.1, seen.2, ?_⟩
    intro clean
    rw [clean.nothing_left.2] at seen
    cases seen.2

end CalledQueue

end Cfutures
