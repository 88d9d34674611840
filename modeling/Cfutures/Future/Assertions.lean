/-
# Future.Assertions -- what a future shows, and when one of its assertions fails

Nothing restricts the number or the order of settling calls.  The fields of a future are
those calls applied to a new future one after the other, so it shows the latest value
and the latest code, each kept through calls of the other kind (`run_shows`).

Three assertions run without the mutex: in `future_execute_callbacks`, in `future_get`
and in `callback_execute`.  The first never fails.  The second fails where no settling
call has fulfilled, the third at a callback registered with a null pointer, and the
process is gone exactly if one of these two has happened (`aborted_iff`).
-/
import Cfutures.Future.Registration
import Cfutures.Future.Waiting

namespace Cfutures

open Cfutures.Theory

set_option autoImplicit false

universe u

def Outcome.value : Outcome → Option Ptr
  | .fulfill value => some value
  | .reject _ => none

def Outcome.code : Outcome → Option Int
  | .fulfill _ => none
  | .reject rc => some rc

/-- The value of the latest fulfilling call. -/
def lastFulfilled (outcomes : List Outcome) : Option Ptr :=
  (outcomes.filterMap Outcome.value).getLast?

/-- The code of the latest rejecting call. -/
def lastRejected (outcomes : List Outcome) : Option Int :=
  (outcomes.filterMap Outcome.code).getLast?

/-- What a future shows after some settling calls. -/
structure ShowsLatest (f : Future) (outcomes : List Outcome) : Prop where
  resolved : futureIsResolved f = !outcomes.isEmpty
  fulfilled : futureIsFulfilled f = (lastFulfilled outcomes).isSome
  rejectedCode : futureRejectedCode f = (lastRejected outcomes).getD 0
  get : futureGet f = lastFulfilled outcomes

theorem lastFulfilled_concat (outcomes : List Outcome) (o : Outcome) :
    lastFulfilled (outcomes ++ [o]) = o.value.or (lastFulfilled outcomes) := by
  cases o <;> simp [lastFulfilled, Outcome.value]

theorem lastRejected_concat (outcomes : List Outcome) (o : Outcome) :
    lastRejected (outcomes ++ [o]) = o.code.or (lastRejected outcomes) := by
  cases o <;> simp [lastRejected, Outcome.code]

theorem futureNew_showsLatest : ShowsLatest futureNew [] := ⟨rfl, rfl, rfl, rfl⟩

/-- A settling call shows on top of the earlier ones. -/
theorem ShowsLatest.settle {f : Future} {outcomes : List Outcome} (shows : ShowsLatest f outcomes)
    (o : Outcome) : ShowsLatest (o.settle f) (outcomes ++ [o]) := by
  obtain ⟨resolved, fulfilled, rejectedCode, get⟩ := shows
  refine ⟨by simp [futureIsResolved], ?_, ?_, ?_⟩
  · rw [lastFulfilled_concat]
    cases o with
    | fulfill value => rfl
    | reject rc => exact fulfilled
  · rw [lastRejected_concat]
    cases o with
    | fulfill value => exact rejectedCode
    | reject rc => rfl
  · rw [lastFulfilled_concat]
    cases o with
    | fulfill value => rfl
    | reject rc =>
        simp only [futureIsFulfilled, futureGet] at fulfilled get ⊢
        simp only [Outcome.settle, futureSetRejected, Outcome.value, Option.none_or, ← get,
          Bool.true_and]
        cases isFulfilled : f.isFulfilled with
        | false => simp
        | true =>
            have some_ : (lastFulfilled outcomes).isSome = true := by rw [← fulfilled, isFulfilled]
            rw [← get, isFulfilled, Bool.and_true] at some_
            split at some_
            · simp_all
            · cases some_

theorem ShowsLatest.of_callbacks {f : Future} {outcomes : List Outcome}
    (shows : ShowsLatest f outcomes) (callbacks : Ptr) :
    ShowsLatest { f with callbacks := callbacks } outcomes :=
  ⟨shows.resolved, shows.fulfilled, shows.rejectedCode, shows.get⟩

namespace SharedFuture

variable {φ : Type u} {s t : SharedFuture φ} {order : List Addr} {k w : Nat} {link : Addr}
variable {past more : List (SharedFuture φ × FutureAction φ)}

theorem run_showsLatest (run : (machine φ).Run past s) : ShowsLatest s.future s.outcomes := by
  refine Machine.Run.invariant (I := fun s : SharedFuture φ => ShowsLatest s.future s.outcomes)
    futureNew_showsLatest ?_ run
  intro s a t shows stepped
  obtain ⟨-, ⟨o, -, rfl⟩ | ⟨k, w, -, walked⟩ | ⟨link, callbackFn, args, -, added⟩ |
    ⟨-, waits⟩⟩ := step_cases stepped
  · exact shows.settle o
  · rcases walkStep_cases walked with ⟨-, rfl⟩ | ⟨-, -, -, rfl⟩ | ⟨-, -, rfl⟩ |
      ⟨_, _, -, -, -, -, rfl⟩ | ⟨_, _, -, -, -, rfl⟩ | ⟨-, -, rfl⟩ <;> exact shows
  · obtain ⟨-, rfl⟩ := addCallbackStep_cases added
    exact shows.of_callbacks _
  · rw [waits.future, waits.outcomes]
    exact shows

/-- The step of `future_get` past its wait. -/
theorem step_get (stepped : s.step (.get w) = some t) :
    s.waiter w = .reading ∧
      ((∃ value, futureGet s.future = some value ∧ t.aborted = false ∧
          t.returns = s.returns ++ [⟨w, some value⟩]) ∨
        futureGet s.future = none ∧ t = { s with aborted := true }) := by
  obtain ⟨alive, taken⟩ := Option.ite_none_left_eq_some.1 stepped
  simp only [getStep, Option.ite_none_right_eq_some] at taken
  obtain ⟨reads, taken⟩ := taken
  refine ⟨reads, ?_⟩
  split at taken
  · rename_i value shown
    cases taken
    exact Or.inl ⟨value, shown, eq_false_of_ne_true alive, rfl⟩
  · rename_i unshown
    cases taken
    exact Or.inr ⟨unshown, rfl⟩

/-- Past its wait a `future_get` reads a future that has been settled. -/
theorem settled_of_get (run : (machine φ).Run past s) (stepped : s.step (.get w) = some t) :
    s.outcomes ≠ [] := by
  have resolved : futureIsResolved s.future = true :=
    (run_waits run).reading w (step_get stepped).1
  intro none_
  rw [(run_showsLatest run).resolved, none_] at resolved
  cases resolved

/-- **A future shows its latest value and its latest code**, whatever its settling calls
are and in whatever order: resolved if there has been one, fulfilled if one has
fulfilled; and a `future_get` past its wait returns the value of the latest fulfilling
call, or fails its assertion if every call so far has rejected. -/
theorem shows_latest (run : (machine φ).Run past s) :
    ShowsLatest s.future s.outcomes ∧ ∀ w t, s.step (.get w) = some t →
      s.outcomes ≠ [] ∧
        match lastFulfilled s.outcomes with
        | some value => t.returns = s.returns ++ [⟨w, some value⟩] ∧ t.aborted = false
        | none => t.aborted = true := by
  have shows := run_showsLatest run
  refine ⟨shows, ?_⟩
  intro w t stepped
  refine ⟨settled_of_get run stepped, ?_⟩
  rw [← shows.get]
  obtain ⟨-, ⟨value, shown, alive, returned⟩ | ⟨unshown, rfl⟩⟩ := step_get stepped
  · rw [shown]
    exact ⟨returned, alive⟩
  · rw [unshown]

/-- Fulfilled, rejected, fulfilled again and rejected again: the second value is read. -/
theorem shows_latest_four :
    ∃ past s, (machine Unit).Run past s ∧ ShowsLatest s.future s.outcomes ∧
      lastFulfilled s.outcomes = some (some 6) ∧ futureRejectedCode s.future = 4 ∧
      ∃ t, s.step (.get 0) = some t ∧ t.returns = [⟨0, some (some 6)⟩] := by
  obtain ⟨past, s, run, seen⟩ := Machine.exists_run_of_exec (M := machine Unit)
    (p := fun r => decide (lastFulfilled r.2.outcomes = some (some 6)) &&
      decide (r.2.future.rejectedRc = 4) && decide (r.2.returns = []) &&
      (r.2.step (.get 0)).isSome)
    [.settle (.fulfill (some 5)), .settle (.reject 3), .wait 0 true, .check 0,
      .settle (.fulfill (some 6)), .settle (.reject 4)] (by decide)
  simp only [Bool.and_eq_true, decide_eq_true_eq] at seen
  obtain ⟨⟨⟨value, code⟩, none_⟩, some_⟩ := seen
  obtain ⟨t, stepped⟩ := Option.isSome_iff_exists.1 some_
  obtain ⟨shows, gets⟩ := shows_latest run
  obtain ⟨-, returned⟩ := gets 0 t stepped
  rw [value] at returned
  exact ⟨past, s, run, shows, value, code, t, stepped, by rw [returned.1, none_]; rfl⟩

/-! ## Assertions -/

/-- Callback `link` was registered without a function or without an argument. -/
def RegisteredUnfit (past : List (SharedFuture φ × FutureAction φ)) (link : Addr) : Prop :=
  ∃ e ∈ past, ∃ callbackFn args, e.2 = .addCallback link callbackFn args ∧
    (callbackFn = none ∨ args = none)

/-- A walk has come to callback `link`. -/
def Reached (past : List (SharedFuture φ × FutureAction φ)) (link : Addr) : Prop :=
  ∃ e ∈ past, ∃ k, e.2 = .walk k .execute ∧ e.1.call k = .walking (some link)

/-- A `future_get` has read a future that no call had fulfilled. -/
def GotUnfulfilled (past : List (SharedFuture φ × FutureAction φ)) : Prop :=
  ∃ e ∈ past, ∃ w, e.2 = .get w ∧ lastFulfilled e.1.outcomes = none

theorem callbackExecutable_false {record : Callback φ} :
    callbackExecutable record = false ↔ record.callbackFn = none ∨ record.args = none := by
  cases present : record.callbackFn <;> simp [callbackExecutable, present]

/-- A callback record is what some recorded registration made it. -/
theorem record_registered (run : (machine φ).Run past s) {record : Callback φ}
    (present : s.records link = some record) :
    ∃ e ∈ past, e.2 = .addCallback link record.callbackFn record.args := by
  have empty : ¬ (start : SharedFuture φ).records link = some record := by simp [start]
  obtain ⟨e, recorded, earlier, t, upto, absent, taken, present'⟩ :=
    Machine.Run.becomes (P := fun s : SharedFuture φ => s.records link = some record)
      empty run present
  refine ⟨e, recorded, ?_⟩
  rcases step_effect taken with ⟨link', callbackFn, args, named, -, -, records⟩ |
    ⟨_, _, _, -, -, -, records, -⟩ | ⟨-, records, -⟩
  · rw [records] at present'
    by_cases same : link = link'
    · subst same
      rw [Store.put_same, Option.some.injEq] at present'
      rw [named, ← present']
    · rw [Store.put_ne _ _ same] at present'
      exact absurd present' absent
  · exact absurd (records ▸ present') absent
  · exact absurd (records ▸ present') absent

/-- The only steps that fail an assertion. -/
theorem step_aborts (run : (machine φ).Run past s) {a : FutureAction φ}
    (stepped : s.step a = some t) (aborted : t.aborted = true) :
    (∃ w, a = .get w ∧ s.waiter w = .reading ∧ futureGet s.future = none) ∨
      ∃ k link record, a = .walk k .execute ∧ s.call k = .walking (some link) ∧
        s.records link = some record ∧ callbackExecutable record = false := by
  obtain ⟨order, walks⟩ := run_walks run
  obtain ⟨alive, taken⟩ := Option.ite_none_left_eq_some.1 stepped
  have goesOn : ¬ s.aborted = true := alive
  cases a with
  | settle o =>
      rw [step_settle stepped] at aborted
      exact absurd aborted goesOn
  | walk k step =>
      rcases walkStep_cases taken with ⟨fails, -⟩ | ⟨-, -, -, rfl⟩ | ⟨-, -, rfl⟩ |
        ⟨_, _, -, -, -, -, rfl⟩ | ⟨_, _, -, -, -, rfl⟩ | ⟨-, -, rfl⟩
      · cases step with
        | assertResolved =>
            -- the call is past its critical section, so it has settled the future
            obtain ⟨place, unresolved⟩ := fails
            have resolved := walks.began (k := k) (by simp [place])
            rw [futureIsResolved, resolved] at unresolved
            cases unresolved
        | execute =>
            obtain ⟨link, record, place, present, unfit⟩ := fails
            exact Or.inr ⟨k, link, record, rfl, place, present, unfit⟩
        | _ => exact absurd fails id
      all_goals exact absurd aborted goesOn
  | addCallback link callbackFn args =>
      obtain ⟨-, rfl⟩ := addCallbackStep_cases taken
      exact absurd aborted goesOn
  | wait w get =>
      obtain ⟨-, same⟩ := Option.ite_none_right_eq_some.1 taken
      cases same
      exact absurd aborted goesOn
  | check w =>
      have alive' : t.aborted = s.aborted := by
        simp only [checkStep] at taken
        split at taken
        · split at taken
          · split at taken <;> (cases taken; rfl)
          · cases taken
            rfl
        · cases taken
      rw [alive'] at aborted
      exact absurd aborted goesOn
  | spurious w =>
      simp only [spuriousStep] at taken
      split at taken
      · cases taken
        exact absurd aborted goesOn
      · cases taken
  | get w =>
      obtain ⟨reads, ⟨value, -, alive', -⟩ | ⟨unshown, -⟩⟩ := step_get stepped
      · rw [alive'] at aborted
        cases aborted
      · exact Or.inl ⟨w, rfl, reads, unshown⟩

/-- Nothing runs on. -/
theorem aborted_stays (steps : (machine φ).Steps s more t) (aborted : s.aborted = true) :
    t.aborted = true :=
  Machine.Steps.invariant (I := fun s : SharedFuture φ => s.aborted = true)
    (fun _ _ _ gone stepped => absurd gone (Option.ite_none_left_eq_some.1 stepped).1) steps aborted

/-- At a callback registered with a null pointer the process ends. -/
theorem reached_unfit (run : (machine φ).Run past s) (unfit : RegisteredUnfit past link)
    (reached : Reached past link) : s.aborted = true := by
  obtain ⟨d, registered, callbackFn, args, named, null⟩ := unfit
  obtain ⟨record, present, sameFn, sameArgs⟩ := registered_record run registered named
  obtain ⟨e, recorded, k, walks, place⟩ := reached
  obtain ⟨before, after, u, -, upto, taken, rest⟩ := Machine.Steps.of_mem run recorded
  rw [walks] at taken
  obtain ⟨order, walks'⟩ := run_walks upto
  have walked : e.1.walkStep k .execute = some u := (Option.ite_none_left_eq_some.1 taken).2
  simp only [walkStep, place, Option.map_eq_some_iff] at walked
  obtain ⟨record', present', ended⟩ := walked
  -- the record the walk reads is the one that was registered
  have kept := ((walks'.persists (.single taken)).trans
    ((walks'.along (.single taken)).2.choose_spec.persists rest)).records link _ present'
  rw [present, Option.some.injEq] at kept
  subst kept
  have fails : callbackExecutable record = false := by
    rw [callbackExecutable_false, sameFn, sameArgs]
    exact null
  rw [fails] at ended
  exact aborted_stays rest (by rw [← ended]; rfl)

/-- Where every settling call has rejected, `future_get` ends the process. -/
theorem got_unfulfilled (run : (machine φ).Run past s) (got : GotUnfulfilled past) :
    s.aborted = true := by
  obtain ⟨e, recorded, w, gets, unfulfilled⟩ := got
  obtain ⟨before, after, u, -, upto, taken, rest⟩ := Machine.Steps.of_mem run recorded
  rw [gets] at taken
  obtain ⟨-, ⟨value, shown, -, -⟩ | ⟨-, rfl⟩⟩ := step_get taken
  · rw [(run_showsLatest upto).get, unfulfilled] at shown
    cases shown
  · exact aborted_stays rest rfl

/-- And nothing else does. -/
theorem cause_of_aborted (run : (machine φ).Run past s) (aborted : s.aborted = true) :
    GotUnfulfilled past ∨ ∃ link, RegisteredUnfit past link ∧ Reached past link := by
  obtain ⟨e, recorded, earlier, t, upto, -, taken, aborted'⟩ :=
    Machine.Run.becomes (P := fun s : SharedFuture φ => s.aborted = true) (by simp [machine, start])
      run aborted
  rcases step_aborts upto taken aborted' with ⟨w, gets, -, unshown⟩ |
    ⟨k, link, record, walks, place, present, unfit⟩
  · left
    rw [(run_showsLatest upto).get] at unshown
    exact ⟨e, recorded, w, gets, unshown⟩
  · right
    obtain ⟨before, after, u, rfl, upto', -, -⟩ := Machine.Steps.of_mem run recorded
    obtain ⟨d, registered, named⟩ := record_registered upto' present
    exact ⟨link, ⟨d, List.mem_append_left _ registered, _, _, named,
      callbackExecutable_false.1 unfit⟩, e, recorded, k, walks, place⟩

/-- **An assertion fails in two situations only**: a `future_get` reads a future that no
settling call had fulfilled, or a walk comes to a callback that was registered without
a function or without an argument. -/
theorem aborted_iff (run : (machine φ).Run past s) :
    s.aborted = true ↔
      GotUnfulfilled past ∨ ∃ link, RegisteredUnfit past link ∧ Reached past link := by
  refine ⟨cause_of_aborted run, ?_⟩
  rintro (got | ⟨link, unfit, reached⟩)
  · exact got_unfulfilled run got
  · exact reached_unfit run unfit reached

/-- Registered with no argument, reached after a callback that runs: the process ends. -/
theorem aborted_at_null :
    ∃ past s, (machine Unit).Run past s ∧ s.executed.length = 1 ∧ s.aborted = true ∧
      (GotUnfulfilled past ∨ ∃ link, RegisteredUnfit past link ∧ Reached past link) := by
  obtain ⟨past, s, run, seen⟩ := Machine.exists_run_of_exec (M := machine Unit)
    (p := fun r => decide (r.2.executed.length = 1) && r.2.aborted)
    [.addCallback 0 (some ()) none, .addCallback 1 (some ()) (some 8),
      .settle (.fulfill (some 5)), .walk 0 .assertResolved, .walk 0 .load, .walk 0 .execute,
      .walk 0 .next, .walk 0 .execute] (by decide)
  simp only [Bool.and_eq_true, decide_eq_true_eq] at seen
  exact ⟨past, s, run, seen.1, seen.2, (aborted_iff run).1 seen.2⟩

end SharedFuture

end Cfutures
