/-
# Queue.Shape -- every shape the list can be in

`queue_pop` sets `tail` to NULL not only when it empties the list but also when
it leaves exactly one item.  So besides the ordinary shape, where `tail` is the
last item on the chain from `head` (`Anchored`), there is a second one
(`Adrift`): a single item on the chain with `tail` NULL, or, once an enqueue has
run there, with `tail` at an item the chain does not reach.

`Shaped q l` is their disjunction for the chain `l`.  Both operations keep it and
never touch an absent item; what they do to the chain is

* enqueue: `l ++ [item]` when anchored, `l` itself when adrift
  (`enqueue_anchored`, `enqueue_adrift`);
* pop: the tail of `l`, anchored unless one item is left (`pop_shaped`).
-/
import Cfutures.Queue.Basic

namespace Cfutures

open Cfutures.Theory

set_option autoImplicit false

universe u

variable {α : Type u}

namespace Queue

/-- `tail` is the last item on the chain, NULL when there is none. -/
def Anchored (q : Queue α) (l : List Addr) : Prop := q.tail = l.getLast?

/-- One item on the chain, and `tail` does not refer to it. -/
def Adrift (q : Queue α) (l : List Addr) : Prop :=
  (∃ only, l = [only] ∧ q.tail ≠ some only) ∧ q.TailLive

/-- The chain from `head` is `l`, and `tail` is in one of the two positions. -/
structure Shaped (q : Queue α) (l : List Addr) : Prop where
  holds : q.Holds l
  tail : q.Anchored l ∨ q.Adrift l

variable {q q' : Queue α} {l : List Addr} {item : Addr} {value : α}

theorem queueNew_shaped : (queueNew : Queue α).Shaped [] :=
  ⟨by simp [Holds, queueNew], Or.inl rfl⟩

theorem Holds.head_eq (holds : q.Holds l) : q.head = l.head? := Chain.head_eq holds

theorem Holds.of_head (holds : q.Holds l) (atHead : q.head = some item) :
    ∃ rest, l = item :: rest :=
  List.head?_eq_some_iff.1 (holds.head_eq.symm.trans atHead)

theorem Holds.live (holds : q.Holds l) {a : Addr} (member : a ∈ l) :
    ∃ record, q.items a = some record :=
  Chain.live holds member

theorem Shaped.tailLive (shaped : q.Shaped l) : q.TailLive := by
  rcases shaped.tail with anchored | ⟨-, live⟩
  · intro t atTail
    exact shaped.holds.live (List.mem_of_getLast? (anchored.symm.trans atTail))
  · exact live

/-- `head` is NULL only if `tail` is. -/
theorem Shaped.tail_of_head_null (shaped : q.Shaped l) (empty : q.head = none) :
    q.tail = none := by
  have nil : l = [] := by
    have := shaped.holds.head_eq
    rw [empty] at this
    exact List.head?_eq_none_iff.1 this.symm
  subst nil
  rcases shaped.tail with anchored | ⟨⟨only, impossible, -⟩, -⟩
  · exact anchored
  · cases impossible

/-! ## Enqueue -/

theorem itemsAfterEnqueue_item (q : Queue α) (item : Addr) (value : α) :
    q.itemsAfterEnqueue item value item =
      some { next := none, prev := q.tail, value := value } := by
  simp [itemsAfterEnqueue]

theorem itemsAfterEnqueue_other (q : Queue α) {item a : Addr} (value : α) (ne : a ≠ item)
    (notTail : q.tail ≠ some a) : q.itemsAfterEnqueue item value a = q.items a := by
  simp [itemsAfterEnqueue, ne, notTail]

theorem itemsAfterEnqueue_tail (q : Queue α) {item t : Addr} (value : α) (ne : t ≠ item)
    (atTail : q.tail = some t) :
    q.itemsAfterEnqueue item value t =
      (q.items t).map fun last => { last with next := some item } := by
  simp [itemsAfterEnqueue, ne, atTail]

/-- Of an item already in the store an enqueue changes at most `next`. -/
theorem itemsAfterEnqueue_map {γ : Type*} (q : Queue α) {item a : Addr} (value : α)
    (ne : a ≠ item) {f : Item α → γ}
    (keeps : ∀ record next, f { record with next := next } = f record) :
    (q.itemsAfterEnqueue item value a).map f = (q.items a).map f := by
  simp only [itemsAfterEnqueue, ne, if_false]
  split <;> simp [Function.comp_def, keeps]

theorem itemsAfterEnqueue_value (q : Queue α) {item a : Addr} (value : α) (ne : a ≠ item) :
    (q.itemsAfterEnqueue item value a).map Item.value = (q.items a).map Item.value :=
  q.itemsAfterEnqueue_map value ne fun _ _ => rfl

theorem itemsAfterEnqueue_prev (q : Queue α) {item a : Addr} (value : α) (ne : a ≠ item) :
    (q.itemsAfterEnqueue item value a).map Item.prev = (q.items a).map Item.prev :=
  q.itemsAfterEnqueue_map value ne fun _ _ => rfl

/-- On an anchored list the new item becomes the last one. -/
theorem enqueue_anchored (shaped : q.Shaped l) (anchored : q.Anchored l)
    (fresh : q.items item = none) (done : queueEnqueue q item value = some q') :
    q'.Shaped (l ++ [item]) ∧ q'.Anchored (l ++ [item]) := by
  rw [queueEnqueue_eq value fresh shaped.tailLive, Option.some.injEq] at done
  subst done
  have anchored' : Anchored
      { head := some (q.head.getD item), tail := some item,
        items := q.itemsAfterEnqueue item value } (l ++ [item]) := by
    simp [Anchored]
  refine ⟨⟨?_, Or.inl anchored'⟩, anchored'⟩
  have notOn : ∀ a ∈ l, a ≠ item := Chain.ne_of_absent shaped.holds fresh
  rcases List.eq_nil_or_concat l with rfl | ⟨m, last, rfl⟩
  · have empty : q.head = none := shaped.holds
    simp [Holds, Chain, empty, itemsAfterEnqueue_item]
  · rw [List.concat_eq_append] at *
    have atTail : q.tail = some last := by simpa [Anchored] using anchored
    have chain : Chain Item.next q.items q.head (m ++ [last]) := shaped.holds
    have lastNe : last ≠ item := notOn last (by simp)
    have apart : ∀ d ∈ m, d ≠ last := by
      intro d member same
      subst same
      have nodup := chain.nodup
      rw [List.nodup_append] at nodup
      exact nodup.2.2 d member d (by simp) rfl
    obtain ⟨record, present, -⟩ := chain.last_link
    have head : some (q.head.getD item) = q.head := by
      cases atHead : q.head with
      | none => exact absurd atHead ((Chain.ne_nil_iff chain).1 (by simp))
      | some _ => rfl
    have linked : Chain Item.next (q.itemsAfterEnqueue item value) q.head (m ++ [last, item]) :=
      Chain.snoc chain (fun d member => by
        have ne : d ≠ item := notOn d (by simp [member])
        have notTail : q.tail ≠ some d := by
          rw [atTail]
          exact fun same => apart d member (Option.some.inj same).symm
        rw [itemsAfterEnqueue_other q value ne notTail])
      (by simp [itemsAfterEnqueue_tail q value lastNe atTail, present])
      (by simp [itemsAfterEnqueue_item])
    simpa [Holds, head] using linked

/-- On an adrift list the chain stays as it was: the new item is not reached. -/
theorem enqueue_adrift (shaped : q.Shaped l) (adrift : q.Adrift l)
    (fresh : q.items item = none) (done : queueEnqueue q item value = some q') :
    q'.Shaped l ∧ q'.Adrift l ∧ q'.tail = some item := by
  rw [queueEnqueue_eq value fresh shaped.tailLive, Option.some.injEq] at done
  subst done
  obtain ⟨⟨only, rfl, notTail⟩, -⟩ := adrift
  obtain ⟨head, record, present, onward⟩ := shaped.holds
  have onlyNe : only ≠ item := Store.ne_of_absent present fresh
  have adrift' : Adrift
      { head := some (q.head.getD item), tail := some item,
        items := q.itemsAfterEnqueue item value } [only] :=
    ⟨⟨only, rfl, fun same => onlyNe (Option.some.inj same).symm⟩, fun t atTail => by
      cases atTail
      exact ⟨_, itemsAfterEnqueue_item q item value⟩⟩
  refine ⟨⟨?_, Or.inr adrift'⟩, adrift', rfl⟩
  have kept := itemsAfterEnqueue_other q value onlyNe notTail
  exact ⟨by simp [head], record, kept.trans present, onward⟩

theorem enqueue_fields (shaped : q.Shaped l) (fresh : q.items item = none)
    (done : queueEnqueue q item value = some q') :
    q'.items = q.itemsAfterEnqueue item value ∧ q'.tail = some item := by
  rw [queueEnqueue_eq value fresh shaped.tailLive, Option.some.injEq] at done
  subst done
  exact ⟨rfl, rfl⟩

/-- In either shape an enqueue of a fresh item runs. -/
theorem enqueue_defined (shaped : q.Shaped l) (fresh : q.items item = none) (value : α) :
    ∃ q', queueEnqueue q item value = some q' :=
  ⟨_, queueEnqueue_eq value fresh shaped.tailLive⟩

/-! ## Pop -/

/-- A pop unlinks the first item of the chain.  The rest is anchored, unless one
item is left: then `tail` is NULL. -/
theorem pop_shaped (shaped : q.Shaped (item :: l)) :
    ∃ q', queuePopSection q = some (item, q') ∧ q'.Shaped l ∧ q'.items = q.items ∧
      (q'.Anchored l ∨ q'.tail = none) ∧ q'.tail ≠ some item := by
  have nodup : (item :: l).Nodup := Chain.nodup shaped.holds
  cases l with
  | nil =>
      exact ⟨_, queuePopSection_one shaped.holds, ⟨rfl, Or.inl rfl⟩, rfl, Or.inl rfl, nofun⟩
  | cons next rest =>
      have anchored : q.tail = (next :: rest).getLast? := by
        rcases shaped.tail with anchored | ⟨⟨only, impossible, -⟩, -⟩
        · simpa [Anchored] using anchored
        · cases impossible
      obtain ⟨-, record, present, link, onward⟩ := shaped.holds
      refine ⟨_, queuePopSection_more shaped.holds, ?_, rfl, ?_, ?_⟩
      · refine ⟨⟨rfl, onward⟩, ?_⟩
        by_cases two : rest = []
        · subst two
          exact Or.inr ⟨⟨next, rfl, nofun⟩, nofun⟩
        · exact Or.inl (by simp [Anchored, two, anchored])
      · by_cases two : rest = []
        · exact Or.inr (by simp [two])
        · exact Or.inl (by simp [Anchored, two, anchored])
      · by_cases two : rest = []
        · simp [two]
        · simp only [two, if_false, anchored]
          intro same
          exact (List.nodup_cons.1 nodup).1 (List.mem_of_getLast? same)

/-- What a pop that ran has found and left. -/
theorem pop_cases (shaped : q.Shaped l) (unlinked : queuePopSection q = some (item, q')) :
    ∃ rest, l = item :: rest ∧ q'.Shaped rest ∧ q'.items = q.items ∧
      (q'.Anchored rest ∨ q'.tail = none) ∧ q'.tail ≠ some item := by
  cases l with
  | nil =>
      have empty : q.head = none := shaped.holds
      simp [queuePopSection, empty] at unlinked
  | cons first rest =>
      obtain ⟨q'', unlinked', after⟩ := pop_shaped shaped
      rw [unlinked, Option.some.injEq, Prod.mk.injEq] at unlinked'
      obtain ⟨rfl, rfl⟩ := unlinked'
      exact ⟨rest, rfl, after⟩

/-- Releasing an item that is off the chain and not at `tail`. -/
theorem Shaped.free (shaped : q.Shaped l) (off : item ∉ l) (notTail : q.tail ≠ some item) :
    Shaped { q with items := q.items.free item } l := by
  have onChain : ∀ a ∈ l, q.items.free item a = q.items a := fun a member =>
    Store.free_ne _ fun same => off (same ▸ member)
  refine ⟨shaped.holds.congr_of_eq onChain, ?_⟩
  rcases shaped.tail with anchored | ⟨only, live⟩
  · exact Or.inl anchored
  · refine Or.inr ⟨only, ?_⟩
    intro a atTail
    obtain ⟨record, present⟩ := live a atTail
    have ne : a ≠ item := fun same => notTail (same ▸ atTail)
    exact ⟨record, (Store.free_ne _ ne).trans present⟩

/-- A whole `queue_pop` returns the first item's value and releases the item. -/
theorem queuePop_shaped (shaped : q.Shaped (item :: l)) :
    ∃ record q', q.items item = some record ∧ queuePop q = some (record.value, q') ∧
      q'.Shaped l ∧ q'.items = q.items.free item := by
  obtain ⟨q', unlinked, shaped', items, -, notTail⟩ := pop_shaped shaped
  obtain ⟨record, present⟩ := shaped.holds.live (List.mem_cons_self ..)
  have off : item ∉ l := (List.nodup_cons.1 (Chain.nodup shaped.holds)).1
  refine ⟨record, { q' with items := q'.items.free item }, present, ?_,
    shaped'.free off notTail, by rw [items]⟩
  rw [queuePop, unlinked, Option.bind_some]
  exact queuePopReturn_eq (items ▸ present)

theorem pop_defined_iff (shaped : q.Shaped l) :
    (queuePopSection q).isSome ↔ q.head ≠ none := by
  cases l with
  | nil =>
      have empty : q.head = none := shaped.holds
      simp [queuePopSection, empty]
  | cons item rest =>
      obtain ⟨q', done, -⟩ := pop_shaped shaped
      have busy := (Chain.ne_nil_iff shaped.holds).1 (by simp)
      simp [done, busy]

end Queue

end Cfutures
