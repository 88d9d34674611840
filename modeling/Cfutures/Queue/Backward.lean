/-
# Queue.Backward -- the `prev` links of the list

`struct _queue_t` calls its list doubly linked, and `queue_enqueue` sets `prev` of
the new item to `tail`.  Nothing reads the field.  `Mirrored` says that the `prev`
links answer the `next` links and that `prev` of the item at `head` is NULL.

From the second item of the chain on the `prev` links are always right
(`Threaded.enqueue`, `Threaded.pop`): an enqueue that the chain does not reach
writes no link on it.  At `head` they are not.  `queue_pop` moves `head` to the
next item and leaves that item's `prev` at the item it then frees.

* `mirrored_iff_last_pop`: the links are in order exactly when the last pop took
  the only item of the chain, so emptying the list puts them right again;
* `links_mirrored_iff`: they are so all through a run exactly when every pop of it
  took the only item.
-/
import Cfutures.Queue.Calls

namespace Cfutures

open Cfutures.Theory

set_option autoImplicit false

universe u

variable {α : Type u}

namespace Queue

/-- The `prev` links on the chain from `head` are those of a doubly linked list,
and none of them is to an item that is no longer there. -/
structure Mirrored (q : Queue α) : Prop where
  head : ∀ a record, q.head = some a → q.items a = some record → record.prev = none
  back : ∀ l, q.Holds l → ∀ x ∈ l, ∀ y record record', q.items x = some record →
    record.next = some y → q.items y = some record' → record'.prev = some x
  live : ∀ l, q.Holds l → ∀ a ∈ l, ∀ record b, q.items a = some record →
    record.prev = some b → ∃ record', q.items b = some record'

/-- The item at `head` has another one after it. -/
def headHasNext (q : Queue α) : Bool :=
  (q.head.bind q.items).any fun record => record.next.isSome

/-- The list is in one of its shapes, and along its chain the `prev` links are the
addresses before, `p` for the item at `head`. -/
structure Threaded (q : Queue α) (p : Ptr) (l : List Addr) : Prop where
  shaped : q.Shaped l
  back : BackChain Item.prev q.items p l

variable {q q' : Queue α} {p : Ptr} {l : List Addr} {item : Addr} {value : α}

theorem queueNew_threaded : (queueNew : Queue α).Threaded none [] := ⟨queueNew_shaped, trivial⟩

theorem Threaded.mirrored (threaded : q.Threaded none l) : q.Mirrored where
  head := by
    intro a record atHead present
    obtain ⟨rest, rfl⟩ := threaded.shaped.holds.of_head atHead
    have first := threaded.back.1
    rw [present] at first
    exact Option.some.inj first
  back := by
    intro m holds x member y record record' present link present'
    obtain rfl := holds.unique threaded.shaped.holds
    have answered := threaded.back.of_next holds member present link
    rw [present'] at answered
    exact Option.some.inj answered
  live := by
    intro m holds a member record b present link
    obtain rfl := holds.unique threaded.shaped.holds
    have backLink : (q.items a).map Item.prev = some (some b) := by
      rw [present, ← link]
      rfl
    rcases threaded.back.mem_of_back member backLink with impossible | onChain
    · cases impossible
    · exact holds.live onChain

/-- Only the link at `head` can be wrong. -/
theorem Threaded.mirrored_iff (threaded : q.Threaded p l) :
    q.Mirrored ↔ l = [] ∨ p = none := by
  constructor
  · intro mirrored
    cases l with
    | nil => exact Or.inl rfl
    | cons a rest =>
        obtain ⟨record, present⟩ := threaded.shaped.holds.live List.mem_cons_self
        have first := threaded.back.1
        rw [present, Option.map_some, Option.some.injEq] at first
        exact Or.inr (first ▸ mirrored.head a record threaded.shaped.holds.head_eq present)
  · rintro (rfl | rfl)
    · exact Threaded.mirrored ⟨threaded.shaped, trivial⟩
    · exact threaded.mirrored

/-- An enqueue leaves the link at `head` as it was, and on an empty list makes it NULL. -/
theorem Threaded.enqueue (threaded : q.Threaded p l) (fresh : q.items item = none)
    (done : queueEnqueue q item value = some q') :
    ∃ p' l', q'.Threaded p' l' ∧ (q'.Mirrored ↔ q.Mirrored) := by
  obtain ⟨items, -⟩ := enqueue_fields threaded.shaped fresh done
  have kept : BackChain Item.prev q'.items p l := by
    apply threaded.back.congr
    intro a member
    have ne : a ≠ item := Chain.ne_of_absent threaded.shaped.holds fresh a member
    rw [items, itemsAfterEnqueue_prev q value ne]
  rcases threaded.shaped.tail with anchored | adrift
  · obtain ⟨shaped', -⟩ := enqueue_anchored threaded.shaped anchored fresh done
    have added : (q'.items item).map Item.prev = some l.getLast? := by
      rw [items, itemsAfterEnqueue_item, ← anchored]
      rfl
    cases l with
    | nil =>
        have after : q'.Threaded none [item] := ⟨shaped', added, trivial⟩
        exact ⟨_, _, after, by simp [after.mirrored_iff, threaded.mirrored_iff]⟩
    | cons a rest =>
        have last : (a :: rest).getLast?.or p = (a :: rest).getLast? := by
          rw [List.getLast?_cons]
          rfl
        have after : q'.Threaded p (a :: rest ++ [item]) :=
          ⟨shaped', BackChain.concat_iff.2 ⟨kept, by rw [added, last]⟩⟩
        exact ⟨_, _, after, by simp [after.mirrored_iff, threaded.mirrored_iff]⟩
  · obtain ⟨shaped', -⟩ := enqueue_adrift threaded.shaped adrift fresh done
    have after : q'.Threaded p l := ⟨shaped', kept⟩
    exact ⟨_, _, after, by rw [after.mirrored_iff, threaded.mirrored_iff]⟩

theorem Threaded.headHasNext_iff {rest : List Addr} (threaded : q.Threaded p (item :: rest)) :
    q.headHasNext = false ↔ rest = [] := by
  obtain ⟨atHead, record, present, onward⟩ := threaded.shaped.holds
  have found : q.head.bind q.items = some record := by rw [atHead, Option.bind_some, present]
  have more : rest ≠ [] ↔ record.next ≠ none := Chain.ne_nil_iff onward
  rw [headHasNext, found, Option.any_some, Option.isSome_eq_false_iff, Option.isNone_iff_eq_none]
  exact (not_iff_not.1 more).symm

/-- A pop leaves the new `head` with a link to the item it frees. -/
theorem Threaded.pop {popped : α × Queue α} (threaded : q.Threaded p l)
    (done : queuePop q = some popped) :
    ∃ p' l', popped.2.Threaded p' l' ∧ (popped.2.Mirrored ↔ q.headHasNext = false) := by
  cases l with
  | nil =>
      have empty : q.head = none := threaded.shaped.holds
      simp [queuePop, queuePopSection, empty] at done
  | cons item rest =>
      obtain ⟨record, q', -, done', shaped', items⟩ := queuePop_shaped threaded.shaped
      rw [done, Option.some.injEq] at done'
      subst done'
      have off : item ∉ rest := (List.nodup_cons.1 (Chain.nodup threaded.shaped.holds)).1
      have after : q'.Threaded (some item) rest := by
        refine ⟨shaped', ?_⟩
        apply threaded.back.tail.congr_of_eq
        intro a member
        have ne : a ≠ item := by
          rintro rfl
          exact off member
        rw [items, Store.free_ne _ ne]
      exact ⟨_, _, after, by simp [after.mirrored_iff, threaded.headHasNext_iff]⟩

end Queue

namespace CalledQueue

variable {s t : CalledQueue α} {past : List (CalledQueue α × QueueCall α)}

/-- The call is a pop that leaves an item at `head`. -/
def movesHead (s : CalledQueue α) : QueueCall α → Bool
  | .enqueue _ _ => false
  | .pop => s.queue.headHasNext

/-- What one call does to the links: an enqueue leaves them as they are, and after a
pop they are in order exactly when it has not moved `head` to another item. -/
theorem step_threaded {p : Ptr} {l : List Addr} (threaded : s.queue.Threaded p l)
    {a : QueueCall α} (stepped : s.step a = some t) :
    (∃ p' l', t.queue.Threaded p' l') ∧
      (t.queue.Mirrored ↔ s.movesHead a = false ∧ (a ≠ .pop → s.queue.Mirrored)) := by
  cases a with
  | enqueue item value =>
      simp only [step, enqueueStep, Option.isNone_iff_eq_none, Option.ite_none_right_eq_some,
        Option.map_eq_some_iff] at stepped
      obtain ⟨fresh, queue, linked, rfl⟩ := stepped
      obtain ⟨p', l', after, same⟩ := threaded.enqueue fresh linked
      exact ⟨⟨p', l', after⟩, by simp [same, movesHead]⟩
  | pop =>
      simp only [step, popStep, Option.bind_eq_some_iff, Option.map_eq_some_iff] at stepped
      obtain ⟨item, -, popped, done, rfl⟩ := stepped
      obtain ⟨p', l', after, same⟩ := threaded.pop done
      exact ⟨⟨p', l', after⟩, by simp [same, movesHead]⟩

theorem run_threaded (run : (machine α).Run past s) : ∃ p l, s.queue.Threaded p l :=
  Machine.Run.invariant (I := fun s : CalledQueue α => ∃ p l, s.queue.Threaded p l)
    ⟨none, [], Queue.queueNew_threaded⟩
    (fun _ _ _ ⟨_, _, threaded⟩ stepped => (step_threaded threaded stepped).1) run

/-- **The links are in order exactly when the last pop took the only item**: pops
before it, whatever they left behind, are forgotten once the list has been empty. -/
theorem mirrored_iff_last_pop (run : (machine α).Run past s) :
    s.queue.Mirrored ↔ ∀ earlier e later, past = earlier ++ e :: later →
      (∀ d ∈ later, d.2 ≠ .pop) → e.1.movesHead e.2 = false := by
  induction run with
  | none =>
      have mirrored := (Queue.queueNew_threaded (α := α)).mirrored
      simpa [machine, start] using mirrored
  | @step past u a v before stepped ih =>
      obtain ⟨p, l, threaded⟩ := run_threaded before
      rw [(step_threaded threaded stepped).2, ih]
      constructor
      · rintro ⟨here, earlierOnes⟩ earlier e later split unpopped
        rcases Machine.concat_split split with ⟨rfl, rfl, -⟩ | ⟨init, rfl, upto⟩
        · exact here
        · have notPop : a ≠ .pop := unpopped (u, a) (by simp)
          exact earlierOnes notPop earlier e init upto fun d member =>
            unpopped d (List.mem_append_left _ member)
      · intro all
        refine ⟨all past (u, a) [] rfl (by simp), ?_⟩
        rintro notPop earlier e later rfl unpopped
        apply all earlier e (later ++ [(u, a)]) (by simp)
        intro d member
        rcases List.mem_append.1 member with old | new
        · exact unpopped d old
        · rw [List.mem_singleton.1 new]
          exact notPop

/-- **The links are in order all through a run exactly when no pop moves `head` to
another item**: every `queue_pop` is called on a list of one item. -/
theorem links_mirrored_iff (run : (machine α).Run past s) :
    (∀ u ∈ Machine.visited past s, u.queue.Mirrored) ↔
      ∀ e ∈ past, e.1.movesHead e.2 = false := by
  constructor
  · intro mirrored e recorded
    obtain ⟨before, after, u, rfl, upto, stepped, onward⟩ := Machine.Steps.of_mem run recorded
    obtain ⟨p, l, threaded⟩ := run_threaded upto
    have seen : u ∈ Machine.visited (before ++ e :: after) s := by
      rw [Machine.visited_append]
      exact List.mem_append_right _ (List.mem_cons_of_mem _ onward.start_visited)
    exact ((step_threaded threaded stepped).2.1 (mirrored u seen)).1
  · intro never u seen
    obtain ⟨earlier, later, rfl, upto⟩ := Machine.Run.of_visited run seen
    apply (mirrored_iff_last_pop upto).2
    rintro before e after rfl -
    exact never e (by simp)

/-- One item in and out, then two: the links have been in order throughout. -/
theorem links_mirrored_drained :
    ∃ past s, (machine Nat).Run past s ∧ s.outstanding = [1, 2] ∧
      ∀ u ∈ Machine.visited past s, u.queue.Mirrored := by
  obtain ⟨past, s, run, seen⟩ := Machine.exists_run_of_exec (M := machine Nat)
    (p := fun r => decide (r.2.outstanding = [1, 2]) && r.1.all fun e => !e.1.movesHead e.2)
    [.enqueue 0 7, .pop, .enqueue 1 8, .enqueue 2 9] (by decide)
  simp only [Bool.and_eq_true, decide_eq_true_eq, List.all_eq_true, Bool.not_eq_true'] at seen
  exact ⟨past, s, run, seen.1, (links_mirrored_iff run).2 seen.2⟩

/-- Two items in and one out: `prev` of the item at `head` is the address of the one
that has been freed. -/
theorem link_to_released :
    ∃ past s, (machine Nat).Run past s ∧ ¬ s.queue.Mirrored ∧
      ∃ a record b, s.queue.head = some a ∧ s.queue.items a = some record ∧
        record.prev = some b ∧ b ∉ s.outstanding ∧ s.queue.items b = none := by
  obtain ⟨past, s, run, seen⟩ := Machine.exists_run_of_exec (M := machine Nat)
    (p := fun r => decide (r.2.queue.head = some 1) &&
      decide ((r.2.queue.items 1).map Item.prev = some (some 0)) &&
      decide (r.2.outstanding = [1]) && (r.2.queue.items 0).isNone)
    [.enqueue 0 7, .enqueue 1 8, .pop] (by decide)
  simp only [Bool.and_eq_true, decide_eq_true_eq, Option.isNone_iff_eq_none,
    Option.map_eq_some_iff] at seen
  obtain ⟨⟨⟨atHead, record, present, link⟩, outstanding⟩, gone⟩ := seen
  refine ⟨past, s, run, ?_, 1, record, 0, atHead, present, link, by simp [outstanding], gone⟩
  intro mirrored
  have null := mirrored.head 1 record atHead present
  rw [link] at null
  cases null

end CalledQueue

end Cfutures
