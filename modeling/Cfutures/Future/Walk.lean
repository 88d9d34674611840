/-
# Future.Walk -- what a settling call's walk has been over

`Walks s order`: the callback records are one chain `order` from
`self->callbacks`, and every settling call is where its record says.  A call that
has read the list head is somewhere on the chain from there: it has run the
callbacks up to its place, once each and in order, and the rest is still ahead
(`WalkedTo`).

Records are only ever pushed at the head and never written again, so what a call
read stays the chain it was (`Snapshot`, `Persists.snapshot`).  It has every
callback registered before the read (`Walks.mem_snapshot`) and none registered
after it; `registered_mem_snapshot` puts the two together.
-/
import Cfutures.Future.Shared

namespace Cfutures

open Cfutures.Theory

set_option autoImplicit false

universe u

/-- How far a settling call has come, from what it read of the list head and the
callbacks it has run. -/
def WalkedTo {φ : Type u} (records : Store Addr (Callback φ)) (loaded : Option Ptr)
    (ran : List Addr) : Settler → Prop
  | .idle | .settled | .asserted => loaded = none ∧ ran = []
  | .walking p =>
      ∃ head rest, loaded = some head ∧ Chain Callback.next records head (ran ++ rest) ∧
        Chain Callback.next records p rest
  | .executing c =>
      ∃ head rest record, loaded = some head ∧ Chain Callback.next records head (ran ++ rest) ∧
        c ∈ ran ∧ records c = some record ∧ Chain Callback.next records record.next rest
  | .returned => ∃ head, loaded = some head ∧ Chain Callback.next records head ran

/-- The settling call has an access to the future or its callbacks still to come. -/
def Settler.reading : Settler → Bool
  | .settled | .asserted | .walking (some _) | .executing _ => true
  | .idle | .walking none | .returned => false

/-- A walk only reads the records it passes. -/
theorem WalkedTo.congr {φ : Type u} {records records' : Store Addr (Callback φ)}
    {loaded : Option Ptr} {ran : List Addr} {place : Settler}
    (kept : ∀ a record, records a = some record → records' a = some record)
    (walked : WalkedTo records loaded ran place) : WalkedTo records' loaded ran place := by
  have chain : ∀ {p l}, Chain Callback.next records p l → Chain Callback.next records' p l := by
    intro p l chain
    apply chain.congr_of_eq
    intro a member
    obtain ⟨record, present⟩ := chain.live member
    rw [present, kept a record present]
  cases place with
  | idle => exact walked
  | settled => exact walked
  | asserted => exact walked
  | walking p =>
      obtain ⟨head, rest, read, whole, ahead⟩ := walked
      exact ⟨head, rest, read, chain whole, chain ahead⟩
  | executing c =>
      obtain ⟨head, rest, record, read, whole, member, present, ahead⟩ := walked
      exact ⟨head, rest, record, read, chain whole, member, kept c record present, chain ahead⟩
  | returned =>
      obtain ⟨head, read, whole⟩ := walked
      exact ⟨head, read, chain whole⟩

namespace SharedFuture

variable {φ : Type u} {s t : SharedFuture φ} {order l : List Addr} {k : Nat} {a : Addr}
variable {past : List (SharedFuture φ × FutureAction φ)}

/-- The callbacks settling call `k` has run, in order. -/
def executedBy (s : SharedFuture φ) (k : Nat) : List Addr :=
  (s.executed.filter fun x => decide (x.call = k)).map Execution.callback

theorem mem_executedBy : a ∈ s.executedBy k ↔ ∃ x ∈ s.executed, x.call = k ∧ x.callback = a := by
  simp [executedBy, and_assoc]

/-- The callbacks linked when settling call `k` read the list head. -/
def Snapshot (s : SharedFuture φ) (k : Nat) (l : List Addr) : Prop :=
  ∃ head, s.loaded k = some head ∧ Chain Callback.next s.records head l

theorem Snapshot.unique {m : List Addr} (first : s.Snapshot k l) (second : s.Snapshot k m) :
    l = m := by
  obtain ⟨head, read, chain⟩ := first
  obtain ⟨head', read', chain'⟩ := second
  rw [read, Option.some.injEq] at read'
  subst read'
  exact chain.unique chain'

structure Walks (s : SharedFuture φ) (order : List Addr) : Prop where
  chain : Chain Callback.next s.records s.future.callbacks order
  present : ∀ a, (s.records a).isSome → a ∈ order
  pending : ∀ k, s.outcomes.length ≤ k → s.call k = .idle
  walked : ∀ k, WalkedTo s.records (s.loaded k) (s.executedBy k) (s.call k)
  resolved : s.future.isResolved = true ↔ s.outcomes ≠ []
  saw : ∀ x ∈ s.executed, x.resolved = true

theorem start_walks : (start : SharedFuture φ).Walks [] where
  chain := rfl
  present a present := by simp [start] at present
  pending _ _ := rfl
  walked _ := ⟨rfl, rfl⟩
  resolved := by simp [start, futureNew]
  saw := by simp [start]

/-- A list head that was read is the start of a chain. -/
theorem Walks.snapshot_of_read (walks : s.Walks order) {head : Ptr}
    (read : s.loaded k = some head) : ∃ l, s.Snapshot k l := by
  have here := walks.walked k
  cases place : s.call k with
  | idle => simp [place, WalkedTo, read] at here
  | settled => simp [place, WalkedTo, read] at here
  | asserted => simp [place, WalkedTo, read] at here
  | walking p =>
      rw [place] at here
      obtain ⟨head, rest, read, whole, -⟩ := here
      exact ⟨_, head, read, whole⟩
  | executing c =>
      rw [place] at here
      obtain ⟨head, rest, -, read, whole, -⟩ := here
      exact ⟨_, head, read, whole⟩
  | returned =>
      rw [place] at here
      obtain ⟨head, read, whole⟩ := here
      exact ⟨_, head, read, whole⟩

/-- A call that has run a callback has read a list that starts with what it ran. -/
theorem Walks.reading (walks : s.Walks order) (k : Nat) (ran : s.executedBy k ≠ []) :
    ∃ head rest, s.loaded k = some head ∧
      Chain Callback.next s.records head (s.executedBy k ++ rest) := by
  have here := walks.walked k
  cases place : s.call k with
  | walking p =>
      rw [place] at here
      obtain ⟨head, rest, read, whole, -⟩ := here
      exact ⟨head, rest, read, whole⟩
  | executing c =>
      rw [place] at here
      obtain ⟨head, rest, -, read, whole, -⟩ := here
      exact ⟨head, rest, read, whole⟩
  | returned =>
      rw [place] at here
      obtain ⟨head, read, whole⟩ := here
      exact ⟨head, [], read, by simpa using whole⟩
  | _ =>
      rw [place] at here
      exact absurd here.2 ran

theorem Walks.executedBy_nodup (walks : s.Walks order) (k : Nat) : (s.executedBy k).Nodup := by
  by_cases none_ : s.executedBy k = []
  · simp [none_]
  · obtain ⟨head, rest, -, whole⟩ := walks.reading k none_
    exact (List.nodup_append.1 whole.nodup).1

/-! ## One step -/

/-- What no step takes back. -/
structure Persists (s t : SharedFuture φ) : Prop where
  loaded : ∀ k head, s.loaded k = some head → t.loaded k = some head
  records : ∀ a record, s.records a = some record → t.records a = some record

theorem Persists.refl (s : SharedFuture φ) : Persists s s := ⟨fun _ _ h => h, fun _ _ h => h⟩

theorem Persists.trans {u : SharedFuture φ} (first : Persists s t) (second : Persists t u) :
    Persists s u :=
  ⟨fun k head h => second.loaded k head (first.loaded k head h),
    fun a record h => second.records a record (first.records a record h)⟩

theorem Persists.snapshot (persists : Persists s t) (snapshot : s.Snapshot k l) :
    t.Snapshot k l := by
  obtain ⟨head, read, chain⟩ := snapshot
  refine ⟨head, persists.loaded k head read, chain.congr_of_eq ?_⟩
  intro a member
  obtain ⟨record, present⟩ := chain.live member
  rw [present, persists.records a record present]

theorem Walks.settleStep (walks : s.Walks order) (o : Outcome) : (s.settleStep o).Walks order where
  chain := by simpa [SharedFuture.settleStep] using walks.chain
  present := walks.present
  pending j later := by
    simp only [SharedFuture.settleStep, List.length_append, List.length_singleton] at later
    have ne : j ≠ s.outcomes.length := by omega
    simpa [SharedFuture.settleStep, ne] using walks.pending j (by omega)
  walked j := by
    have here := walks.walked j
    by_cases same : j = s.outcomes.length
    · rw [walks.pending j (Nat.le_of_eq same.symm)] at here
      simpa [SharedFuture.settleStep, same, WalkedTo, executedBy] using here
    · simpa [SharedFuture.settleStep, same, executedBy] using here
  resolved := by simp [SharedFuture.settleStep]
  saw := walks.saw

/-- Moving call `k` along, with nothing run. -/
theorem Walks.of_call (walks : s.Walks order) {place : Settler} {loaded : Nat → Option Ptr}
    (began : s.call k ≠ .idle)
    (others : ∀ j, j ≠ k → loaded j = s.loaded j)
    (walked : WalkedTo s.records (loaded k) (s.executedBy k) place) :
    Walks { s with call := Function.update s.call k place, loaded := loaded } order where
  chain := walks.chain
  present := walks.present
  pending j later := by
    have before := walks.pending j later
    have ne : j ≠ k := fun same => began (same ▸ before)
    simpa [ne] using before
  walked j := by
    by_cases same : j = k
    · subst same
      simpa [executedBy] using walked
    · simpa [same, others j same, executedBy] using walks.walked j
  resolved := walks.resolved
  saw := walks.saw

theorem Walks.began (walks : s.Walks order) (active : s.call k ≠ .idle) :
    s.future.isResolved = true := by
  rw [walks.resolved]
  intro none_
  exact active (walks.pending k (by simp [none_]))

theorem executedBy_append (x : Execution) :
    executedBy { s with executed := s.executed ++ [x] } k =
      s.executedBy k ++ if x.call = k then [x.callback] else [] := by
  by_cases here : x.call = k <;> simp [executedBy, List.filter_append, here]

/-- Running the callback at the place of call `k`. -/
theorem Walks.execute (walks : s.Walks order) {callback : Addr}
    (place : s.call k = .walking (some callback)) :
    Walks { s with
      call := Function.update s.call k (.executing callback)
      executed := s.executed ++ [⟨k, callback, s.future.isResolved⟩] } order where
  chain := walks.chain
  present := walks.present
  pending j later := by
    have before := walks.pending j later
    have ne : j ≠ k := by
      rintro rfl
      rw [place] at before
      cases before
    simpa [ne] using before
  walked j := by
    by_cases same : j = k
    · subst same
      have here := walks.walked j
      rw [place] at here
      obtain ⟨head, rest, read, whole, ahead⟩ := here
      obtain ⟨record, rest', rfl, present, onward⟩ := Chain.some_iff.1 ahead
      have ran := executedBy_append (s := s) (k := j) ⟨j, callback, s.future.isResolved⟩
      simp only [if_pos] at ran
      simp only [Function.update_self, WalkedTo]
      refine ⟨head, rest', record, read, ?_, ?_, present, onward⟩
      · show Chain Callback.next s.records head (executedBy { s with executed := _ } j ++ rest')
        rw [ran]
        simpa using whole
      · show callback ∈ executedBy { s with executed := _ } j
        simp [ran]
    · have ran := executedBy_append (s := s) (k := j) ⟨k, callback, s.future.isResolved⟩
      simp only [Ne.symm same, if_false, List.append_nil] at ran
      have here := walks.walked j
      rw [← ran] at here
      simpa [same, executedBy] using here
  resolved := walks.resolved
  saw x member := by
    rcases List.mem_append.1 member with before | here
    · exact walks.saw x before
    · rw [List.mem_singleton.1 here]
      exact walks.began (k := k) (by simp [place])

theorem Walks.walkStep (walks : s.Walks order) {w : WalkStep}
    (stepped : s.walkStep k w = some t) : t.Walks order ∧ Persists s t := by
  have here := walks.walked k
  rcases walkStep_cases stepped with ⟨-, rfl⟩ | ⟨-, place, -, rfl⟩ | ⟨-, place, rfl⟩ |
    ⟨callback, record, -, place, present, -, rfl⟩ | ⟨callback, record, -, place, present, rfl⟩ |
    ⟨-, place, rfl⟩
  · exact ⟨⟨walks.chain, walks.present, walks.pending, walks.walked, walks.resolved, walks.saw⟩,
      fun _ _ h => h, fun _ _ h => h⟩
  · rw [place] at here
    exact ⟨walks.of_call (by simp [place]) (fun _ _ => rfl) here, fun _ _ h => h, fun _ _ h => h⟩
  · rw [place] at here
    obtain ⟨unread, ran⟩ := here
    refine ⟨walks.of_call (by simp [place]) (fun j ne => by simp [ne]) ?_, ?_, fun _ _ h => h⟩
    · rw [Function.update_self, ran]
      exact ⟨_, order, rfl, walks.chain, walks.chain⟩
    · intro j head read
      have ne : j ≠ k := by
        rintro rfl
        rw [unread] at read
        cases read
      simpa [ne] using read
  · exact ⟨walks.execute place, fun _ _ h => h, fun _ _ h => h⟩
  · rw [place] at here
    obtain ⟨head, rest, record', read, whole, -, present', ahead⟩ := here
    rw [present, Option.some.injEq] at present'
    subst present'
    exact ⟨walks.of_call (by simp [place]) (fun _ _ => rfl) ⟨head, rest, read, whole, ahead⟩,
      fun _ _ h => h, fun _ _ h => h⟩
  · rw [place] at here
    obtain ⟨head, rest, read, whole, ahead⟩ := here
    obtain rfl := Chain.none_iff.1 ahead
    exact ⟨walks.of_call (by simp [place]) (fun _ _ => rfl) ⟨head, read, by simpa using whole⟩,
      fun _ _ h => h, fun _ _ h => h⟩

theorem Walks.addCallbackStep (walks : s.Walks order) {link : Addr} {callbackFn : Option φ}
    {args : Ptr} (stepped : s.addCallbackStep link callbackFn args = some t) :
    t.Walks (link :: order) ∧ Persists s t := by
  obtain ⟨fresh, rfl⟩ := addCallbackStep_cases stepped
  have kept : ∀ a record, s.records a = some record →
      s.records.put link { next := s.future.callbacks, callbackFn, args } a = some record := by
    intro a record present
    have ne : a ≠ link := Store.ne_of_absent present fresh
    rw [Store.put_ne _ _ ne, present]
  refine ⟨⟨?_, ?_, walks.pending, fun j => (walks.walked j).congr kept, walks.resolved,
    walks.saw⟩, fun _ _ h => h, kept⟩
  · refine ⟨rfl, _, Store.put_same .., walks.chain.congr_of_eq ?_⟩
    intro a member
    obtain ⟨record, present⟩ := walks.chain.live member
    rw [present]
    exact kept a record present
  · intro a present
    by_cases same : a = link
    · simp [same]
    · simp only [Store.put_ne _ _ same] at present
      exact List.mem_cons_of_mem _ (walks.present a present)

theorem Walks.onlyWaits (walks : s.Walks order) (waits : OnlyWaits s t) :
    t.Walks order ∧ Persists s t := by
  obtain ⟨future, records, call, outcomes, loaded, executed⟩ := waits
  refine ⟨⟨?_, ?_, ?_, ?_, ?_, ?_⟩, ?_, ?_⟩
  · rw [records, future]
    exact walks.chain
  · rw [records]
    exact walks.present
  · rw [outcomes, call]
    exact walks.pending
  · intro j
    rw [records, loaded, call, executedBy, executed]
    exact walks.walked j
  · rw [future, outcomes]
    exact walks.resolved
  · rw [executed]
    exact walks.saw
  · rw [loaded]
    exact fun _ _ h => h
  · rw [records]
    exact fun _ _ h => h

/-- A step keeps the invariant, and only a registration lengthens the chain. -/
theorem Walks.step (walks : s.Walks order) {a : FutureAction φ} (stepped : s.step a = some t) :
    Persists s t ∧ ∃ added, t.Walks (added ++ order) := by
  obtain ⟨-, ⟨o, -, rfl⟩ | ⟨k, w, -, walked⟩ | ⟨link, callbackFn, args, -, registered⟩ |
    ⟨-, waits⟩⟩ := step_cases stepped
  · exact ⟨⟨fun _ _ h => h, fun _ _ h => h⟩, [], walks.settleStep o⟩
  · obtain ⟨walks', persists⟩ := walks.walkStep walked
    exact ⟨persists, [], walks'⟩
  · obtain ⟨walks', persists⟩ := walks.addCallbackStep registered
    exact ⟨persists, [link], walks'⟩
  · obtain ⟨walks', persists⟩ := walks.onlyWaits waits
    exact ⟨persists, [], walks'⟩

/-! ## Runs -/

/-- Along any steps, everything that persists does, and the order of registration
only grows. -/
theorem Walks.along (walks : s.Walks order) (steps : (machine φ).Steps s past t) :
    Persists s t ∧ ∃ last, t.Walks last := by
  induction steps with
  | none => exact ⟨.refl s, order, walks⟩
  | step _ stepped ih =>
      obtain ⟨persists, earlier, before⟩ := ih
      obtain ⟨onward, added, after⟩ := before.step stepped
      exact ⟨persists.trans onward, added ++ earlier, after⟩

theorem run_walks (run : (machine φ).Run past s) : ∃ order, s.Walks order :=
  (start_walks.along run).2

theorem Walks.persists (walks : s.Walks order) (steps : (machine φ).Steps s past t) :
    Persists s t := (walks.along steps).1

/-- A list head is read with everything registered by then behind it. -/
theorem Walks.loads_all (walks : s.Walks order) {w : FutureAction φ}
    (stepped : s.step w = some t) (unread : s.loaded k = none) {head : Ptr}
    (read : t.loaded k = some head) : Chain Callback.next t.records head order := by
  obtain ⟨-, ⟨o, -, rfl⟩ | ⟨j, w, -, walked⟩ | ⟨link, callbackFn, args, -, registered⟩ |
    ⟨-, waits⟩⟩ := step_cases stepped
  · rw [show (s.settleStep o).loaded = s.loaded from rfl, unread] at read
    cases read
  · rcases walkStep_cases walked with ⟨-, rfl⟩ | ⟨-, -, -, rfl⟩ | ⟨-, -, rfl⟩ |
      ⟨_, _, -, -, -, -, rfl⟩ | ⟨_, _, -, -, -, rfl⟩ | ⟨-, -, rfl⟩
    case inr.inr.inl =>
      by_cases same : k = j
      · subst same
        simp only [Function.update_self, Option.some.injEq] at read
        rw [← read]
        exact walks.chain
      · simp [same, unread] at read
    all_goals simp [unread] at read
  · obtain ⟨-, rfl⟩ := addCallbackStep_cases registered
    simp [unread] at read
  · rw [waits.loaded, unread] at read
    cases read

/-- What was registered before call `k` read the list head is in what it read. -/
theorem Walks.mem_snapshot (walks : s.Walks order) (steps : (machine φ).Steps s past t)
    (unread : s.loaded k = none) (registered : (s.records a).isSome)
    (snapshot : t.Snapshot k l) : a ∈ l := by
  have kept : (∃ m, t.Walks m ∧ a ∈ m) ∧ ∀ m, t.Snapshot k m → a ∈ m := by
    refine Machine.Steps.invariant
      (I := fun t => (∃ m, t.Walks m ∧ a ∈ m) ∧ ∀ m, t.Snapshot k m → a ∈ m) ?_ steps ?_
    · rintro u w v ⟨⟨m, walks, member⟩, inside⟩ stepped
      obtain ⟨persists, added, walks'⟩ := walks.step stepped
      refine ⟨⟨_, walks', List.mem_append_right _ member⟩, ?_⟩
      intro m' snapshot'
      cases before : u.loaded k with
      | none =>
          obtain ⟨head, read, chain⟩ := snapshot'
          rw [chain.unique (walks.loads_all stepped before read)]
          exact member
      | some head =>
          obtain ⟨m, snapshot⟩ := walks.snapshot_of_read before
          rw [snapshot'.unique (persists.snapshot snapshot)]
          exact inside m snapshot
    · refine ⟨⟨order, walks, walks.present a registered⟩, ?_⟩
      intro m snapshot
      obtain ⟨head, read, -⟩ := snapshot
      rw [unread] at read
      cases read
  exact kept.2 l snapshot

/-! ## Accesses still to come -/

/-- A settling call that is through reads nothing more. -/
theorem step_through {w : FutureAction φ} (stepped : s.step w = some t)
    (notSettle : ∀ o, w ≠ .settle o) (through : (s.call k).reading = false) :
    (t.call k).reading = false := by
  obtain ⟨-, ⟨o, settles, -⟩ | ⟨j, w, -, walked⟩ | ⟨link, callbackFn, args, -, added⟩ |
    ⟨-, waits⟩⟩ := step_cases stepped
  · exact absurd settles (notSettle o)
  · have moved : ∀ place : Settler, ((s.call j).reading = false → place.reading = false) →
        (Function.update s.call j place k).reading = false := by
      intro place onward
      by_cases same : k = j
      · subst same
        simpa using onward through
      · simpa [same] using through
    rcases walkStep_cases walked with ⟨-, rfl⟩ | ⟨-, place, -, rfl⟩ | ⟨-, place, rfl⟩ |
      ⟨_, _, -, place, -, -, rfl⟩ | ⟨_, _, -, place, -, rfl⟩ | ⟨-, place, rfl⟩
    · exact through
    all_goals exact moved _ fun quiet => by simp_all [Settler.reading]
  · obtain ⟨-, rfl⟩ := addCallbackStep_cases added
    exact through
  · rw [waits.call]
    exact through

/-- A settling call that has accesses to come still has, unless it makes one. -/
theorem step_reading {w : FutureAction φ} (stepped : s.step w = some t)
    (notSettle : ∀ o, w ≠ .settle o) (notRead : ∀ j step, w = .walk j step → step = .finish)
    (reading : (s.call k).reading = true) : (t.call k).reading = true := by
  obtain ⟨-, ⟨o, settles, -⟩ | ⟨j, w, named, walked⟩ | ⟨link, callbackFn, args, -, added⟩ |
    ⟨-, waits⟩⟩ := step_cases stepped
  · exact absurd settles (notSettle o)
  · obtain rfl := notRead j w named
    rcases walkStep_cases walked with ⟨fails, -⟩ | ⟨named, -⟩ | ⟨named, -⟩ | ⟨_, _, named, -⟩ |
      ⟨_, _, named, -⟩ | ⟨-, place, rfl⟩
    · exact absurd fails id
    · cases named
    · cases named
    · cases named
    · cases named
    · by_cases same : k = j
      · subst same
        simp [place, Settler.reading] at reading
      · simpa [same] using reading
  · obtain ⟨-, rfl⟩ := addCallbackStep_cases added
    exact reading
  · rw [waits.call]
    exact reading

end SharedFuture

end Cfutures
