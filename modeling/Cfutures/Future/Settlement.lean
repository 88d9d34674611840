/-
# Future.Settlement -- settling a promise more than once

Nothing in `future_set_value` or `future_set_rejected` looks at `is_resolved`, so
every settling call writes its fields over the outcome and walks the callbacks
again.  A step is `harmless` when it does not: a settling section that is the
first or writes what the fields already hold, a read of the list head when no
other call has found a callback there.

If all steps of a run are harmless, every state of it shows the first outcome and
no callback runs twice (`settled_once`).  Once every settling call has returned,
the converse holds too: `settled_once_iff` is both.
-/
import Cfutures.Future.Registration
import Mathlib.Data.List.Nodup

namespace Cfutures

open Cfutures.Theory

set_option autoImplicit false

universe u

/-- The settling section would write what the fields already hold. -/
def Outcome.repeats (f : Future) : Outcome → Bool
  | .fulfill value => futureIsFulfilled f && decide (f.value = value)
  | .reject rc => decide (futureRejectedCode f = rc)

theorem Outcome.settle_of_repeats {f : Future} {o : Outcome} (resolved : f.isResolved = true)
    (repeats : o.repeats f = true) : o.settle f = f := by
  obtain ⟨isResolved, isFulfilled, rejectedRc, value, callbacks⟩ := f
  cases o with
  | fulfill value' =>
      simp_all [Outcome.repeats, Outcome.settle, futureSetValue, futureIsFulfilled]
  | reject rc =>
      obtain rfl : rejectedRc = rc := of_decide_eq_true repeats
      simp_all [Outcome.settle, futureSetRejected]

/-- What survives a settling call was written by it too. -/
theorem Outcome.repeats_of_shown {f : Future} {o first : Outcome} (before : first.ShownBy f)
    (after : first.ShownBy (o.settle f)) : o.repeats f = true := by
  obtain ⟨isResolved, isFulfilled, rejectedRc, value, callbacks⟩ := f
  cases first <;> cases o <;>
    simp_all [Outcome.repeats, Outcome.settle, Outcome.ShownBy, futureSetValue,
      futureSetRejected, futureIsFulfilled, futureRejectedCode, futureGet]

theorem Outcome.ShownBy.of_callbacks {f : Future} {o : Outcome} (shown : o.ShownBy f)
    (callbacks : Ptr) : o.ShownBy { f with callbacks := callbacks } := by
  cases o <;> exact shown

namespace SharedFuture

variable {φ : Type u} {s t : SharedFuture φ} {order l : List Addr} {k : Nat}
variable {past : List (SharedFuture φ × FutureAction φ)}

/-- Call `j` has found a callback at the list head. -/
def foundCallbacks (s : SharedFuture φ) (j : Nat) : Bool :=
  match s.loaded j with
  | some (some _) => true
  | _ => false

theorem foundCallbacks_iff {j : Nat} :
    s.foundCallbacks j = true ↔ ∃ a, s.loaded j = some (some a) := by
  unfold foundCallbacks
  split <;> simp_all

/-- The step is not a second settling that changes the outcome, and not a second
walk over callbacks another call has found. -/
def harmless (s : SharedFuture φ) : FutureAction φ → Bool
  | .settle o => !futureIsResolved s.future || o.repeats s.future
  | .walk k .load => (List.range s.outcomes.length).all fun j => j = k || !s.foundCallbacks j
  | _ => true

/-- The first outcome is what the future reports, and no callback ran twice. -/
def SettledOnce (s : SharedFuture φ) : Prop :=
  (∀ o ∈ s.outcomes.head?, o.ShownBy s.future) ∧ (s.executed.map Execution.callback).Nodup

/-! ## Harmless steps settle once -/

/-- What harmless steps keep. -/
structure Settled (s : SharedFuture φ) : Prop where
  unset : s.outcomes = [] → s.future = { futureNew with callbacks := s.future.callbacks }
  shown : ∀ o ∈ s.outcomes.head?, o.ShownBy s.future
  single : ∀ i j, s.foundCallbacks i = true → s.foundCallbacks j = true → i = j

theorem Settled.of_record (settled : s.Settled) (future : t.future = s.future)
    (outcomes : t.outcomes = s.outcomes) (loaded : t.loaded = s.loaded) : t.Settled where
  unset none_ := by
    rw [future]
    exact settled.unset (outcomes ▸ none_)
  shown o first := by
    rw [future]
    exact settled.shown o (outcomes ▸ first)
  single i j := by
    simp only [foundCallbacks, loaded]
    exact settled.single i j

theorem Settled.settleStep (walks : s.Walks order) (settled : s.Settled) {o : Outcome}
    (ok : s.harmless (.settle o) = true) : (s.settleStep o).Settled where
  unset none_ := by simp [SharedFuture.settleStep] at none_
  shown p first := by
    cases before : s.outcomes with
    | nil =>
        obtain rfl : o = p := by simpa [SharedFuture.settleStep, before] using first
        show o.ShownBy (o.settle s.future)
        rw [settled.unset before]
        exact o.settle_shows s.future.callbacks
    | cons q rest =>
        obtain rfl : q = p := by simpa [SharedFuture.settleStep, before] using first
        have resolved := walks.resolved.2 (by simp [before])
        have repeats : o.repeats s.future = true := by
          simpa [harmless, futureIsResolved, resolved] using ok
        show q.ShownBy (o.settle s.future)
        rw [Outcome.settle_of_repeats resolved repeats]
        exact settled.shown q (by simp [before])
  single := settled.single

theorem Settled.load (walks : s.Walks order) (settled : s.Settled)
    (ok : s.harmless (.walk k .load) = true) : Settled { s with
      call := Function.update s.call k (.walking s.future.callbacks)
      loaded := Function.update s.loaded k (some s.future.callbacks) } where
  unset := settled.unset
  shown := settled.shown
  single := by
    -- any other call that found callbacks is in the way of this one
    have alone : ∀ j, j ≠ k → s.foundCallbacks j = false := by
      intro j ne
      by_cases early : j < s.outcomes.length
      · have here := List.all_eq_true.1 ok j (List.mem_range.2 early)
        simpa [ne] using here
      · have idle := walks.walked j
        rw [walks.pending j (by omega)] at idle
        simp [foundCallbacks, idle.1]
    have after : ∀ j, j ≠ k → foundCallbacks { s with
        call := Function.update s.call k (.walking s.future.callbacks)
        loaded := Function.update s.loaded k (some s.future.callbacks) } j = false := by
      intro j ne
      simpa [foundCallbacks, ne] using alone j ne
    have same : ∀ j, foundCallbacks { s with
        call := Function.update s.call k (.walking s.future.callbacks)
        loaded := Function.update s.loaded k (some s.future.callbacks) } j = true → j = k := by
      intro j found
      by_contra ne
      rw [after j ne] at found
      cases found
    intro i j first second
    rw [same i first, same j second]

theorem Settled.step (walks : s.Walks order) (settled : s.Settled) {a : FutureAction φ}
    (ok : s.harmless a = true) (stepped : s.step a = some t) : t.Settled := by
  obtain ⟨-, ⟨o, rfl, rfl⟩ | ⟨k, w, rfl, walked⟩ | ⟨link, callbackFn, args, -, added⟩ |
    ⟨-, waits⟩⟩ := step_cases stepped
  · exact settled.settleStep walks ok
  · rcases walkStep_cases walked with ⟨-, rfl⟩ | ⟨-, -, -, rfl⟩ | ⟨rfl, -, rfl⟩ |
      ⟨_, _, -, -, -, -, rfl⟩ | ⟨_, _, -, -, -, rfl⟩ | ⟨-, -, rfl⟩
    · exact settled.of_record rfl rfl rfl
    · exact settled.of_record rfl rfl rfl
    · exact settled.load walks ok
    · exact settled.of_record rfl rfl rfl
    · exact settled.of_record rfl rfl rfl
    · exact settled.of_record rfl rfl rfl
  · obtain ⟨-, rfl⟩ := addCallbackStep_cases added
    refine ⟨fun none_ => ?_, fun o first => (settled.shown o first).of_callbacks _, settled.single⟩
    show { s.future with callbacks := some link } = _
    rw [settled.unset none_]
  · exact settled.of_record waits.future waits.outcomes waits.loaded

theorem run_settled (run : (machine φ).Run past s)
    (ok : ∀ e ∈ past, e.1.harmless e.2 = true) : (∃ order, s.Walks order) ∧ s.Settled := by
  refine Machine.Run.invariant_where
    (I := fun s : SharedFuture φ => (∃ order, s.Walks order) ∧ s.Settled)
    (P := fun s a => s.harmless a = true) ⟨⟨[], start_walks⟩, ?_⟩ ?_ run ok
  · exact ⟨fun _ => rfl, by simp [machine, start], by simp [machine, start, foundCallbacks]⟩
  · rintro s a t ⟨⟨order, walks⟩, settled⟩ ok stepped
    obtain ⟨-, added, after⟩ := walks.step stepped
    exact ⟨⟨_, after⟩, settled.step walks ok stepped⟩

/-- A call that has run a callback has found one. -/
theorem Walks.found_of_executed (walks : s.Walks order) {x : Execution} (ran : x ∈ s.executed) :
    s.foundCallbacks x.call = true := by
  have member : x.callback ∈ s.executedBy x.call := mem_executedBy.2 ⟨x, ran, rfl, rfl⟩
  obtain ⟨head, rest, read, whole⟩ := walks.reading x.call (List.ne_nil_of_mem member)
  have busy := (Chain.ne_nil_iff whole).1 (by simp [List.ne_nil_of_mem member])
  obtain ⟨a, rfl⟩ := Option.ne_none_iff_exists'.1 busy
  exact foundCallbacks_iff.2 ⟨a, read⟩

theorem Walks.settledOnce (walks : s.Walks order) (settled : s.Settled) : s.SettledOnce := by
  refine ⟨settled.shown, ?_⟩
  cases runs : s.executed with
  | nil => simp
  | cons x rest =>
      have here : x ∈ s.executed := by simp [runs]
      have one : ∀ y ∈ s.executed, decide (y.call = x.call) = true := by
        intro y ran
        have same := settled.single _ _ (walks.found_of_executed ran) (walks.found_of_executed here)
        simp [same]
      have whole : s.executed.map Execution.callback = s.executedBy x.call := by
        rw [executedBy, List.filter_eq_self.2 one]
      rw [← runs, whole]
      exact walks.executedBy_nodup x.call

/-- A future settled once so far shows that outcome, whatever else has happened. -/
theorem shown_of_single (run : (machine φ).Run past s) :
    (s.outcomes = [] → s.future = { futureNew with callbacks := s.future.callbacks }) ∧
      ∀ o, s.outcomes = [o] → o.ShownBy s.future := by
  induction run with
  | none => exact ⟨fun _ => rfl, fun o one => by cases one⟩
  | @step past s a t _ stepped ih =>
      obtain ⟨unset, shown⟩ := ih
      obtain ⟨-, ⟨o, -, rfl⟩ | ⟨k, w, -, walked⟩ | ⟨link, callbackFn, args, -, added⟩ |
        ⟨-, waits⟩⟩ := step_cases stepped
      · refine ⟨fun none_ => by simp [SharedFuture.settleStep] at none_, ?_⟩
        intro p one
        cases before : s.outcomes with
        | nil =>
            obtain rfl : o = p := by simpa [SharedFuture.settleStep, before] using one
            show o.ShownBy (o.settle s.future)
            rw [unset before]
            exact o.settle_shows s.future.callbacks
        | cons q rest => simp [SharedFuture.settleStep, before] at one
      · rcases walkStep_cases walked with ⟨-, rfl⟩ | ⟨-, -, -, rfl⟩ | ⟨-, -, rfl⟩ |
          ⟨_, _, -, -, -, -, rfl⟩ | ⟨_, _, -, -, -, rfl⟩ | ⟨-, -, rfl⟩ <;> exact ⟨unset, shown⟩
      · obtain ⟨-, rfl⟩ := addCallbackStep_cases added
        refine ⟨fun none_ => ?_, fun o one => (shown o one).of_callbacks _⟩
        show { s.future with callbacks := some link } = _
        rw [unset none_]
      · rw [waits.future, waits.outcomes]
        exact ⟨unset, shown⟩

/-! ## And only they do -/

/-- A settling section that changes what a state shows is seen right after it. -/
theorem Walks.harmless_of_shown (walks : s.Walks order) {o : Outcome} (before : s.SettledOnce)
    (after : (s.settleStep o).SettledOnce) : s.harmless (.settle o) = true := by
  cases outcomes : s.outcomes with
  | nil =>
      have unresolved := walks.resolved.not.2 (not_not.2 outcomes)
      simp [harmless, futureIsResolved, unresolved]
  | cons first rest =>
      have shown := before.1 first (by simp [outcomes])
      have shown' := after.1 first (by simp [SharedFuture.settleStep, outcomes])
      simp [harmless, Outcome.repeats_of_shown shown shown']

/-- Two calls that have both returned from walks over the same callback ran it twice. -/
theorem run_twice {j : Nat} {a : Addr} (ne : j ≠ k) (first : a ∈ s.executedBy j)
    (second : a ∈ s.executedBy k) : ¬ s.SettledOnce := by
  rintro ⟨-, once⟩
  obtain ⟨x, ran, call, callback⟩ := mem_executedBy.1 first
  obtain ⟨y, ran', call', callback'⟩ := mem_executedBy.1 second
  have same := List.inj_on_of_nodup_map once ran ran' (callback.trans callback'.symm)
  exact ne (by rw [← call, ← call', same])

theorem Walks.read_lt (walks : s.Walks order) {head : Ptr} (read : s.loaded k = some head) :
    k < s.outcomes.length := by
  by_contra late
  have here := walks.walked k
  rw [walks.pending k (by omega)] at here
  rw [here.1] at read
  cases read

/-- A second walk over callbacks that were found already runs one of them again. -/
theorem Walks.load_twice (walks : s.Walks order) {j : Nat} {a : Addr}
    (stepped : s.step (.walk k .load) = some t) (ne : j ≠ k) (read : s.loaded j = some (some a))
    {u : SharedFuture φ} (rest : (machine φ).Steps t past u)
    (done : ∀ j, j < u.outcomes.length → u.call j = .returned) : ¬ u.SettledOnce := by
  obtain ⟨-, place, rfl⟩ : _ ∧ s.call k = .asserted ∧ { s with
      call := Function.update s.call k (.walking s.future.callbacks)
      loaded := Function.update s.loaded k (some s.future.callbacks) } = t := by
    simpa [SharedFuture.step, SharedFuture.walkStep] using stepped
  have unread := walks.walked k
  rw [place] at unread
  have steps : (machine φ).Steps s ([] ++ [(s, .walk k .load)] ++ past) u :=
    (Machine.Steps.none.step stepped).append rest
  have onward := walks.persists steps
  obtain ⟨last, ended⟩ := (walks.along steps).2
  -- call `j` has `a` ahead of it, and call `k` reads a list that `a` is on
  obtain ⟨m, snapshot⟩ := walks.snapshot_of_read read
  have member : a ∈ m := by
    obtain ⟨head, read', chain⟩ := snapshot
    rw [read, Option.some.injEq] at read'
    subst read'
    obtain ⟨_, _, rfl, -, -⟩ := Chain.some_iff.1 chain
    simp
  have present : (s.records a).isSome := by
    obtain ⟨_, -, chain⟩ := snapshot
    obtain ⟨record, present⟩ := chain.live member
    simp [present]
  have readK : u.loaded k = some s.future.callbacks := by
    obtain ⟨-, _, walks'⟩ := walks.step stepped
    exact (walks'.persists rest).loaded k _ (by simp)
  have first := ended.returned_snapshot (done j (ended.read_lt (onward.loaded j _ read)))
  have second := ended.returned_snapshot (done k (ended.read_lt readK))
  refine run_twice (a := a) ne ?_ (walks.mem_snapshot steps unread.1 present second)
  rw [first.unique (onward.snapshot snapshot)]
  exact member

theorem harmless_of_settledOnce (run : (machine φ).Run past s)
    (done : ∀ j, j < s.outcomes.length → s.call j = .returned)
    (once : ∀ u ∈ Machine.visited past s, u.SettledOnce) :
    ∀ e ∈ past, e.1.harmless e.2 = true := by
  intro e recorded
  obtain ⟨before, after, u, split, upto, taken, rest⟩ := Machine.Steps.of_mem run recorded
  obtain ⟨order, walks⟩ := run_walks upto
  have here := once e.1 (List.mem_append_left _ (List.mem_map_of_mem recorded))
  have next : u ∈ Machine.visited past s := by
    rw [split, Machine.visited_append]
    exact List.mem_append_right _ (List.mem_cons_of_mem _ rest.start_visited)
  cases action : e.2 with
  | settle o =>
      rw [action] at taken
      obtain rfl := step_settle taken
      exact walks.harmless_of_shown here (once _ next)
  | walk k w =>
      cases w with
      | load =>
          rw [action] at taken
          simp only [harmless, List.all_eq_true, List.mem_range, Bool.or_eq_true,
            decide_eq_true_eq, Bool.not_eq_true']
          intro j early
          by_contra found
          rw [not_or, Bool.not_eq_false, foundCallbacks_iff] at found
          obtain ⟨ne, a, read⟩ := found
          have ended : s ∈ Machine.visited past s := List.mem_append_right _ (by simp)
          exact walks.load_twice taken ne read rest done (once s ended)
      | _ => rfl
  | _ => rfl

/-! ## Both directions -/

/-- **A promise is settled once and for all in the runs whose steps are harmless, and
once every settling call has returned only in those**: the first outcome is what
every state shows, and no callback is run twice. -/
theorem settled_once_iff (run : (machine φ).Run past s) :
    ((∀ e ∈ past, e.1.harmless e.2 = true) → ∀ u ∈ Machine.visited past s, u.SettledOnce) ∧
      ((∀ j, j < s.outcomes.length → s.call j = .returned) →
        (∀ u ∈ Machine.visited past s, u.SettledOnce) →
          ∀ e ∈ past, e.1.harmless e.2 = true) := by
  refine ⟨?_, harmless_of_settledOnce run⟩
  intro ok u seen
  obtain ⟨earlier, later, split, upto⟩ := Machine.Run.of_visited run seen
  have okBefore : ∀ e ∈ earlier, e.1.harmless e.2 = true := fun e member =>
    ok e (split ▸ List.mem_append_left _ member)
  obtain ⟨⟨order, walks⟩, settled⟩ := run_settled upto okBefore
  exact walks.settledOnce settled

/-- A promise fulfilled twice with one value, with a callback registered before the
first walk has read the list and the second call reading no list: still settled once. -/
theorem fulfilled_again_settled_once :
    ∃ past s, (machine Unit).Run past s ∧ s.outcomes.length = 2 ∧ s.executed.length = 1 ∧
      ∀ u ∈ Machine.visited past s, u.SettledOnce := by
  obtain ⟨past, s, run, seen⟩ := Machine.exists_run_of_exec (M := machine Unit)
    (p := fun r => decide (r.2.outcomes.length = 2) && decide (r.2.executed.length = 1) &&
      r.1.all fun e => e.1.harmless e.2)
    [.addCallback 0 (some ()) (some 7), .settle (.fulfill (some 5)), .settle (.fulfill (some 5)),
      .walk 0 .assertResolved, .walk 0 .load, .walk 0 .execute, .walk 0 .next, .walk 0 .finish]
    (by decide)
  simp only [Bool.and_eq_true, decide_eq_true_eq, List.all_eq_true] at seen
  exact ⟨past, s, run, seen.1.1, seen.1.2, (settled_once_iff run).1 seen.2⟩

/-- Fulfilled, then rejected: the future keeps the value and reports the code, and
the callback has run for both. -/
theorem rejected_after_fulfilled :
    ∃ past s, (machine Unit).Run past s ∧ s.outcomes = [.fulfill (some 5), .reject 3] ∧
      futureGet s.future = some (some 5) ∧ futureRejectedCode s.future = 3 ∧
      (s.executed.map Execution.callback).count 0 = 2 ∧
      ¬ ∀ u ∈ Machine.visited past s, u.SettledOnce := by
  obtain ⟨past, s, run, seen⟩ := Machine.exists_run_of_exec (M := machine Unit)
    (p := fun r => decide (r.2.outcomes = [.fulfill (some 5), .reject 3]) &&
      decide (futureGet r.2.future = some (some 5)) &&
      decide (futureRejectedCode r.2.future = 3) &&
      decide ((r.2.executed.map Execution.callback).count 0 = 2))
    [.addCallback 0 (some ()) (some 7), .settle (.fulfill (some 5)),
      .walk 0 .assertResolved, .walk 0 .load, .walk 0 .execute, .walk 0 .next, .walk 0 .finish,
      .settle (.reject 3),
      .walk 1 .assertResolved, .walk 1 .load, .walk 1 .execute, .walk 1 .next, .walk 1 .finish]
    (by decide)
  simp only [Bool.and_eq_true, decide_eq_true_eq] at seen
  obtain ⟨⟨⟨outcomes, value⟩, code⟩, twice⟩ := seen
  refine ⟨past, s, run, outcomes, value, code, twice, ?_⟩
  intro once
  have last :=
    (once s (List.mem_append_right _ (by simp))).1 (.fulfill (some 5)) (by simp [outcomes])
  rw [last.2.2.1] at code
  cases code

end SharedFuture

end Cfutures
