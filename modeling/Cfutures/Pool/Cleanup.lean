/-
# Pool.Cleanup -- the promise of a submission, and who destroys it

`future_pool_execute` leaves its promise to a callback: `cleanup_execute`, which it
registers on the future after the closure is in the queue.  A promise is destroyed
as often as that callback is run (`Cleanups`), so its fate is the one of a
registration (`Future.Registration`): destroyed once if the callback was
registered before the worker read the list head, and never if after.

No step uses a promise after its destruction, whenever that is: a worker reads the
promise before it settles the future, and the walk comes to the callback once.
-/
import Cfutures.Pool.Results

namespace Cfutures

open Cfutures.Theory

set_option autoImplicit false

universe u v

namespace Pool

variable {n : Nat} {F : Type u} {U : Type v} {s t : Pool n F U} {i a : Addr} {w : Fin n}
variable {past : List (Pool n F U × PoolAction n F U)}

/-- The promise a step reads or frees. -/
def usesPromise (s : Pool n F U) : PoolAction n F U → Option Addr
  | .work w .fulfill =>
      match s.worker w with
      | .ran c _ => (s.closures c).map Closure.promise
      | _ => none
  | .work w (.walk .execute) =>
      match s.worker w with
      | .settling _ f k => s.cleanupAt f k
      | _ => none
  | _ => none

/-- Record `a` of future `i` is a registration of `cleanup_execute`. -/
def IsCleanup (s : Pool n F U) (i a : Addr) : Prop :=
  ∃ record, (s.futures i).records a = some record ∧ record.callbackFn = some .cleanupExecute

structure Cleanups (s : Pool n F U) : Prop where
  own : ∀ i a record, (s.futures i).records a = some record →
    record.callbackFn = some .cleanupExecute → record.args = some i ∧ (s.stage i).isReturned = true
  only : ∀ i a b, s.IsCleanup i a → s.IsCleanup i b → a = b
  never : ∀ i, (∀ a, ¬ s.IsCleanup i a) → i ∉ s.destroyedPromises
  times : ∀ i a, s.IsCleanup i a → s.destroyedPromises.count i = (s.futures i).timesRun a

theorem start_cleanups : (start n F U).Cleanups where
  own i a record present := by simp [start, SharedFuture.start] at present
  only i a b cleanup := by
    obtain ⟨record, present, -⟩ := cleanup
    simp [start, SharedFuture.start] at present
  never i _ := by simp [start]
  times i a cleanup := by
    obtain ⟨record, present, -⟩ := cleanup
    simp [start, SharedFuture.start] at present

/-! ## Steps -/

/-- The records, the runs and the destructions are what they were. -/
theorem Cleanups.of_same (cleanups : s.Cleanups)
    (records : ∀ i, (t.futures i).records = (s.futures i).records)
    (executed : ∀ i, (t.futures i).executed = (s.futures i).executed)
    (stage : ∀ i, (s.stage i).isReturned = true → (t.stage i).isReturned = true)
    (destroyed : t.destroyedPromises = s.destroyedPromises) : t.Cleanups := by
  have same : ∀ i a, t.IsCleanup i a ↔ s.IsCleanup i a := fun i a => by
    rw [IsCleanup, IsCleanup, records]
  refine ⟨?own, ?only, ?never, ?times⟩
  case own =>
    intro i a record present cleanup
    rw [records] at present
    obtain ⟨args, returned⟩ := cleanups.own i a record present cleanup
    exact ⟨args, stage i returned⟩
  case only =>
    intro i a b
    rw [same, same]
    exact cleanups.only i a b
  case never =>
    intro i
    simp only [same, destroyed]
    exact cleanups.never i
  case times =>
    intro i a
    rw [same, destroyed, SharedFuture.timesRun, executed]
    exact cleanups.times i a

theorem update_records {futures : Addr → SharedFuture (CallbackFn U)} {f : Addr}
    {future : SharedFuture (CallbackFn U)} (records : future.records = (futures f).records)
    (i : Addr) : (Function.update futures f future i).records = (futures i).records := by
  by_cases same : i = f <;> simp [same, records]

theorem update_executed {futures : Addr → SharedFuture (CallbackFn U)} {f : Addr}
    {future : SharedFuture (CallbackFn U)} (executed : future.executed = (futures f).executed)
    (i : Addr) : (Function.update futures f future i).executed = (futures i).executed := by
  by_cases same : i = f <;> simp [same, executed]

/-- A caller registers a callback of its own. -/
theorem Cleanups.addUser (cleanups : s.Cleanups) {future : SharedFuture (CallbackFn U)}
    {link : Addr} {record : Callback (CallbackFn U)} {aborted : Bool}
    (user : record.callbackFn ≠ some .cleanupExecute) (fresh : (s.futures i).records link = none)
    (records : future.records = (s.futures i).records.put link record)
    (executed : future.executed = (s.futures i).executed) :
    Cleanups { s with futures := Function.update s.futures i future, aborted := aborted } := by
  have same : ∀ j a, IsCleanup { s with
      futures := Function.update s.futures i future, aborted := aborted } j a ↔
        s.IsCleanup j a := by
    intro j a
    by_cases here : j = i
    · subst here
      simp only [IsCleanup, Function.update_self, records, Store.put_apply]
      by_cases new : a = link
      · simp [new, fresh, user]
      · simp [new]
    · simp [IsCleanup, here]
  refine ⟨?own, ?only, ?never, ?times⟩
  case own =>
    intro j a r present cleanup
    obtain ⟨r', present', cleanup'⟩ := (same j a).1 ⟨r, present, cleanup⟩
    have args := cleanups.own j a r' present' cleanup'
    by_cases here : j = i
    · subst here
      simp only [Function.update_self, records, Store.put_apply] at present
      split at present
      · cases present
        exact absurd cleanup user
      · exact cleanups.own j a r present cleanup
    · simp only [Function.update_of_ne here] at present
      exact cleanups.own j a r present cleanup
  case only =>
    intro j a b
    rw [same, same]
    exact cleanups.only j a b
  case never =>
    intro j
    simp only [same]
    exact cleanups.never j
  case times =>
    intro j a
    rw [same]
    intro cleanup
    rw [SharedFuture.timesRun, update_executed executed]
    exact cleanups.times j a cleanup

/-- `future_pool_execute` registers `cleanup_execute` with its own promise. -/
theorem Cleanups.addCleanup (cleanups : s.Cleanups) {link : Addr}
    (ran : ∀ x ∈ (s.futures i).executed, ((s.futures i).records x.callback).isSome)
    (taken : s.Takes (.addCleanup i link) t) : t.Cleanups := by
  cases taken
  rename_i future enqueued taken
  obtain ⟨fresh, same⟩ := SharedFuture.addCallbackStep_cases (SharedFuture.step_addCallback taken)
  have executed : future.executed = (s.futures i).executed := by rw [same]
  have records : future.records = (s.futures i).records.put link
      { next := (s.futures i).future.callbacks, callbackFn := some .cleanupExecute,
        args := some i } := by
    rw [same]
  have before : ∀ a, ¬ s.IsCleanup i a := by
    rintro a ⟨record, present, cleanup⟩
    have returned := (cleanups.own i a record present cleanup).2
    rw [enqueued] at returned
    cases returned
  have others : ∀ j a, j ≠ i → (IsCleanup (setStage { s with
      futures := Function.update s.futures i future
      aborted := future.aborted } i .returned) j a ↔ s.IsCleanup j a) := by
    intro j a ne
    simp [IsCleanup, setStage, ne]
  have here : ∀ a, IsCleanup (setStage { s with
      futures := Function.update s.futures i future
      aborted := future.aborted } i .returned) i a ↔ a = link := by
    intro a
    simp only [IsCleanup, setStage, Function.update_self, records, Store.put_apply]
    by_cases new : a = link
    · simp [new]
    · simp only [new, if_false, iff_false]
      exact before a
  have unrun : (s.futures i).timesRun link = 0 := by
    rw [SharedFuture.timesRun, List.count_eq_zero, List.mem_map]
    rintro ⟨x, member, rfl⟩
    have present := ran x member
    rw [fresh] at present
    cases present
  refine ⟨?own, ?only, ?never, ?times⟩
  case own =>
    intro j a r present cleanup
    by_cases same : j = i
    · subst same
      simp only [setStage, Function.update_self, records, Store.put_apply] at present
      split at present
      · cases present
        exact ⟨rfl, by simp [setStage, Stage.isReturned]⟩
      · exact absurd ⟨r, present, cleanup⟩ (before a)
    · simp only [setStage, Function.update_of_ne same] at present ⊢
      exact cleanups.own j a r present cleanup
  case only =>
    intro j a b first second
    by_cases same : j = i
    · subst same
      rw [(here a).1 first, (here b).1 second]
    · exact cleanups.only j a b ((others j a same).1 first) ((others j b same).1 second)
  case never =>
    intro j none_
    by_cases same : j = i
    · subst same
      exact absurd ((here link).2 rfl) (none_ link)
    · exact cleanups.never j fun a cleanup => none_ a ((others j a same).2 cleanup)
  case times =>
    intro j a cleanup
    by_cases same : j = i
    · subst same
      obtain rfl := (here a).1 cleanup
      have notYet : s.destroyedPromises.count j = 0 :=
        List.count_eq_zero.2 (cleanups.never j before)
      simp only [setStage, Function.update_self, SharedFuture.timesRun, executed]
      exact notYet.trans unrun.symm
    · simp only [setStage, Function.update_of_ne same]
      exact cleanups.times j a ((others j a same).1 cleanup)

/-- The walk has come to a callback: the cleanup of this future, or none. -/
theorem Cleanups.cleanupAt_cases (cleanups : s.Cleanups) {f k callback : Addr}
    {record : Callback (CallbackFn U)} (place : (s.futures f).call k = .walking (some callback))
    (present : (s.futures f).records callback = some record) :
    (s.IsCleanup f callback ∧ s.cleanupAt f k = some f ∧ callbackExecutable record = true) ∨
      (¬ s.IsCleanup f callback ∧ s.cleanupAt f k = none) := by
  obtain ⟨next, callbackFn, args⟩ := record
  by_cases cleanup : callbackFn = some .cleanupExecute
  · left
    obtain rfl : args = some f := (cleanups.own f callback _ present cleanup).1
    subst cleanup
    exact ⟨⟨_, present, rfl⟩, by simp [cleanupAt, place, present], rfl⟩
  · refine Or.inr ⟨?_, ?_⟩
    · rintro ⟨r, present', cleanup'⟩
      rw [present, Option.some.injEq] at present'
      subst present'
      exact cleanup cleanup'
    · simp only [cleanupAt, place, present]
      split
      · rename_i same
        simp only [Option.some.injEq, Callback.mk.injEq] at same
        exact absurd same.2.1 cleanup
      · rfl

/-- The walk comes to a callback: if it is `cleanup_execute`, a promise goes. -/
theorem Cleanups.execute (cleanups : s.Cleanups) {f k callback : Addr}
    {future : SharedFuture (CallbackFn U)} {record : Callback (CallbackFn U)} {saw : Bool}
    (aborted : Bool) (place : (s.futures f).call k = .walking (some callback))
    (present : (s.futures f).records callback = some record)
    (records : future.records = (s.futures f).records)
    (executed : (callbackExecutable record = false ∧ future.executed = (s.futures f).executed) ∨
      future.executed = (s.futures f).executed ++ [⟨k, callback, saw⟩]) :
    Cleanups { s with
      futures := Function.update s.futures f future, aborted := aborted
      destroyedPromises := s.destroyedPromises ++ (s.cleanupAt f k).toList } := by
  have same : ∀ j a, IsCleanup { s with
      futures := Function.update s.futures f future, aborted := aborted
      destroyedPromises := s.destroyedPromises ++ (s.cleanupAt f k).toList } j a ↔
        s.IsCleanup j a := fun j a => by
    simp only [IsCleanup, update_records records]
  -- a promise goes exactly when the callback is the cleanup of its future
  have goes : (s.IsCleanup f callback ∧ s.cleanupAt f k = some f ∧
        future.executed = (s.futures f).executed ++ [⟨k, callback, saw⟩]) ∨
      (¬ s.IsCleanup f callback ∧ s.cleanupAt f k = none) := by
    rcases cleanups.cleanupAt_cases place present with ⟨mine, goes, fit⟩ | none_
    · refine Or.inl ⟨mine, goes, executed.resolve_left ?_⟩
      rintro ⟨unfit, _⟩
      rw [fit] at unfit
      cases unfit
    · exact Or.inr none_
  refine ⟨?own, ?only, ?never, ?times⟩
  case own =>
    intro j a r present' cleanup
    simp only [update_records records] at present'
    exact cleanups.own j a r present' cleanup
  case only =>
    intro j a b
    rw [same, same]
    exact cleanups.only j a b
  case never =>
    intro j none_
    simp only [same] at none_
    have before := cleanups.never j none_
    rcases goes with ⟨cleanup, promise, -⟩ | ⟨-, promise⟩
    · have ne : j ≠ f := fun here => none_ callback (here ▸ cleanup)
      simpa [promise, ne] using before
    · simpa [promise] using before
  case times =>
    intro j a cleanup
    rw [same] at cleanup
    have before := cleanups.times j a cleanup
    by_cases here : j = f
    · subst here
      rcases goes with ⟨mine, promise, ran⟩ | ⟨notMine, promise⟩
      · obtain rfl := cleanups.only j a callback cleanup mine
        simp only [promise, SharedFuture.timesRun] at before ⊢
        simp [ran, before]
      · have ne : callback ≠ a := by
          rintro rfl
          exact notMine cleanup
        simp only [promise, SharedFuture.timesRun] at before ⊢
        rcases executed with ⟨-, ran⟩ | ran <;> simp [ran, before, ne]
    · have ne : f ≠ j := Ne.symm here
      have count : (s.destroyedPromises ++ (s.cleanupAt f k).toList).count j =
          s.destroyedPromises.count j := by
        rcases goes with ⟨-, promise, -⟩ | ⟨-, promise⟩ <;> simp [promise, ne]
      simpa only [count, Function.update_of_ne here] using before

theorem Cleanups.walk (cleanups : s.Cleanups) {step : WalkStep}
    (taken : s.Takes (.work w (.walk step)) t) : t.Cleanups := by
  cases taken
  rename_i c f k future place taken
  obtain ⟨_, _, _, named, -⟩ | ⟨k', callback, record, named, at_, present, records, executed⟩ |
    ⟨other, records, executed⟩ := SharedFuture.step_effect taken
  · cases named
  · cases named
    have moved := cleanups.execute future.aborted at_ present records executed
    exact moved.of_same (fun _ => rfl) (fun _ => rfl) (fun _ h => h) rfl
  · have notExecute : step ≠ .execute := fun same => other k (by rw [same])
    exact cleanups.of_same (update_records records) (update_executed executed) (fun _ h => h)
      (if_neg notExecute)

theorem Cleanups.client (cleanups : s.Cleanups) {a : ClientAction U}
    (taken : s.Takes (.client i a) t) : t.Cleanups := by
  cases taken
  rename_i future returned taken
  obtain ⟨link, callbackFn, args, named, fresh, executed, records⟩ | ⟨_, _, _, named, -⟩ |
    ⟨-, records, executed⟩ := SharedFuture.step_effect taken
  · refine cleanups.addUser ?_ fresh records executed
    cases a with
    | addCallback link' fn args' =>
        simp only [ClientAction.onFuture, FutureAction.addCallback.injEq] at named
        obtain ⟨-, rfl, -⟩ := named
        cases fn <;> simp
    | _ => cases named
  · cases a <;> cases named
  · exact cleanups.of_same (update_records records) (update_executed executed) (fun _ h => h) rfl

theorem Cleanups.step (cleanups : s.Cleanups) (wired : s.Wired)
    (ran : ∀ i, ∀ x ∈ (s.futures i).executed, ((s.futures i).records x.callback).isSome)
    {a : PoolAction n F U} (stepped : s.step a = some t) : t.Cleanups := by
  have stage : ∀ i, (s.stage i).isReturned = true → (t.stage i).isReturned = true := fun i =>
    wired.returned_stays stepped
  cases step_takes stepped with
  | addCleanup => exact cleanups.addCleanup (ran _) (step_takes stepped)
  | client => exact cleanups.client (step_takes stepped)
  | settle _ taken =>
      obtain rfl := SharedFuture.step_settle taken
      exact cleanups.of_same (update_records rfl) (update_executed rfl) stage rfl
  | walk => exact cleanups.walk (step_takes stepped)
  | _ => exact cleanups.of_same (fun _ => rfl) (fun _ => rfl) stage rfl

theorem run_cleanups (run : (machine n F U).Run past s) : s.Cleanups := by
  induction run with
  | none => exact start_cleanups
  | step before stepped ih =>
      refine ih.step (run_wired before) (?_) stepped
      intro i x member
      obtain ⟨order, walks⟩ := SharedFuture.run_walks (run_future before i)
      exact walks.executed_present member

/-! ## No use after destruction -/

/-- A promise whose cleanup has not been run is there. -/
theorem Cleanups.live (cleanups : s.Cleanups)
    (unrun : ∀ a, s.IsCleanup i a → (s.futures i).timesRun a = 0) : i ∉ s.destroyedPromises := by
  by_cases registered : ∃ a, s.IsCleanup i a
  · obtain ⟨a, cleanup⟩ := registered
    rw [← List.count_eq_zero, cleanups.times i a cleanup]
    exact unrun a cleanup
  · exact cleanups.never i fun a cleanup => registered ⟨a, cleanup⟩

/-- A worker about to fulfill the promise finds it there. -/
theorem ran_live (run : (machine n F U).Run past s) {c : Addr} {value : Ptr}
    (place : s.worker w = .ran c value) : c ∉ s.destroyedPromises := by
  obtain ⟨task, -, expects⟩ := (run_ledger run).fits w c (by simp [place, Worker.closure])
  rw [place] at expects
  have outcomes : (s.futures c).outcomes = [] := congrArg Life.outcomes expects
  obtain ⟨order, walks⟩ := SharedFuture.run_walks (run_future run c)
  apply (run_cleanups run).live
  intro a _
  rw [SharedFuture.timesRun, List.count_eq_zero, List.mem_map]
  rintro ⟨x, member, -⟩
  have early := walks.call_lt member
  simp [outcomes] at early

/-- The promise that a walk comes to is there: the callback is still ahead of it. -/
theorem cleanupAt_live (run : (machine n F U).Run past s) {c f k : Addr}
    (place : s.worker w = .settling c f k) (at_ : s.cleanupAt f k = some i) :
    i ∉ s.destroyedPromises := by
  have cleanups := run_cleanups run
  obtain ⟨callback, record, here, present⟩ : ∃ callback record,
      (s.futures f).call k = .walking (some callback) ∧
        (s.futures f).records callback = some record := by
    unfold cleanupAt at at_
    split at at_
    case h_2 => cases at_
    split at at_
    case h_2 => cases at_
    exact ⟨_, _, ‹_›, ‹_›⟩
  obtain ⟨mine, goes, -⟩ : s.IsCleanup f callback ∧ s.cleanupAt f k = some f ∧ _ := by
    refine (cleanups.cleanupAt_cases here present).resolve_right ?_
    rintro ⟨_, none_⟩
    rw [none_] at at_
    cases at_
  obtain rfl : f = i := by rwa [goes, Option.some.injEq] at at_
  obtain ⟨task, -, expects⟩ := (run_ledger run).fits w c (by simp [place, Worker.closure])
  rw [place] at expects
  obtain ⟨rfl, rfl, value, settled⟩ := expects
  have outcomes : (s.futures f).outcomes = [.fulfill value] := congrArg Life.outcomes settled
  obtain ⟨order, walks⟩ := SharedFuture.run_walks (run_future run f)
  apply cleanups.live
  intro a cleanup
  obtain rfl := cleanups.only f a callback cleanup mine
  have ahead := walks.walked 0
  rw [here] at ahead
  obtain ⟨head, rest, -, whole, ahead⟩ := ahead
  obtain ⟨_, rest', rfl, -, -⟩ := Chain.some_iff.1 ahead
  rw [SharedFuture.timesRun, walks.executed_eq (by simp [outcomes]), List.count_eq_zero]
  intro again
  exact (List.nodup_append.1 whole.nodup).2.2 _ again _ (by simp) rfl

/-- A promise is read, and destroyed, while it is there. -/
theorem uses_live (run : (machine n F U).Run past s) {a : PoolAction n F U}
    (uses : s.usesPromise a = some i) : i ∉ s.destroyedPromises := by
  unfold usesPromise at uses
  split at uses
  · split at uses
    · rename_i c value place
      obtain ⟨closure, present, rfl⟩ := Option.map_eq_some_iff.1 uses
      rw [((run_wired run).closure c closure present).1]
      exact ran_live run place
    · cases uses
  · split at uses
    · rename_i c f k place
      exact cleanupAt_live run place uses
    · cases uses
  · cases uses

/-! ## Destroyed once -/

/-- A future that has been returned had its cleanup registered. -/
theorem registered_of_returned (run : (machine n F U).Run past s)
    (returned : (s.stage i).isReturned = true) : ∃ e ∈ past, ∃ link, e.2 = .addCleanup i link := by
  induction run with
  | none => simp [machine, start, Stage.isReturned] at returned
  | @step past s a t before stepped ih =>
      by_cases already : (s.stage i).isReturned = true
      · obtain ⟨e, member, registered⟩ := ih already
        exact ⟨e, List.mem_append_left _ member, registered⟩
      · refine ⟨(s, a), by simp, ?_⟩
        rcases step_stage stepped with same | ⟨_, _, -, same⟩ | ⟨j, _, _, -, -, same⟩ |
          ⟨j, link, named, -, same⟩ | ⟨j, -, before, -, same⟩
        · exact absurd (same ▸ returned) already
        · by_cases here : i = s.submissions.length
          · simp [same, here, Stage.isReturned] at returned
          · exact absurd (by simpa [same, here] using returned) already
        · by_cases here : i = j
          · simp [same, here, Stage.isReturned] at returned
          · exact absurd (by simpa [same, here] using returned) already
        · by_cases here : i = j
          · exact ⟨link, here ▸ named⟩
          · exact absurd (by simpa [same, here] using returned) already
        · by_cases here : i = j
          · simp [here, before, Stage.isReturned] at already
          · exact absurd (by simpa [same, here] using returned) already

/-- How often a promise is destroyed, from when its cleanup was registered. -/
theorem count_destroyed (run : (machine n F U).Run past s)
    (finished : (s.futures i).call 0 = .returned)
    {e : Pool n F U × PoolAction n F U} (recorded : e ∈ past) {link : Addr}
    (registered : e.2 = .addCleanup i link) :
    s.destroyedPromises.count i = if ((e.1.futures i).loaded 0).isNone then 1 else 0 := by
  have seen : (e.1.futures i, FutureAction.addCallback link (some .cleanupExecute) (some i)) ∈
      Machine.projectPast (fun s : Pool n F U => s.futures i) (futureAction i) past :=
    (Machine.mem_projectPast _ _).2 ⟨e, recorded, by simp [registered, futureAction], rfl⟩
  obtain ⟨order, walks⟩ := SharedFuture.run_walks (run_future run i)
  have began : (s.futures i).outcomes ≠ [] := by
    intro none_
    rw [walks.pending 0 (by simp [none_])] at finished
    cases finished
  obtain ⟨task, value, -, life⟩ := (run_ledger run).settled_of_outcome began
  have one : (s.futures i).outcomes.length = 1 := by
    rw [show (s.futures i).outcomes = _ from congrArg Life.outcomes life]
    rfl
  obtain ⟨record, present, cleanup, -⟩ :=
    SharedFuture.registered_record (run_future run i) seen rfl
  rw [(run_cleanups run).times i link ⟨record, present, cleanup⟩]
  exact SharedFuture.timesRun_eq (run_future run i) one finished seen rfl

/-- The promise of a submission has been destroyed once, and never used afterwards. -/
def DestroyedOnce (past : List (Pool n F U × PoolAction n F U)) (s : Pool n F U)
    (i : Addr) : Prop :=
  s.destroyedPromises.count i = 1 ∧
    ∀ e ∈ past, e.1.usesPromise e.2 = some i → i ∉ e.1.destroyedPromises

/-- **The promise of a submission is destroyed exactly once, exactly when its cleanup
was registered before the worker read the callback list**: for a call that has
returned, once the worker is through `promise_fulfill`. -/
theorem destroyedOnce_iff (run : (machine n F U).Run past s)
    (returned : (s.stage i).isReturned = true) (finished : (s.futures i).call 0 = .returned) :
    DestroyedOnce past s i ↔
      ∀ e ∈ past, ∀ link, e.2 = .addCleanup i link → (e.1.futures i).loaded 0 = none := by
  constructor
  · rintro ⟨once, -⟩ e recorded link registered
    have times := count_destroyed run finished recorded registered
    rw [once] at times
    by_contra read
    simp [read] at times
  · intro early
    refine ⟨?_, ?_⟩
    · obtain ⟨e, recorded, link, registered⟩ := registered_of_returned run returned
      have times := count_destroyed run finished recorded registered
      simpa [early e recorded link registered] using times
    · intro e recorded uses
      obtain ⟨earlier, upto⟩ := Machine.Run.before run recorded
      exact uses_live upto uses

/-- The caller registers the cleanup while the task runs: the promise goes once. -/
theorem promise_destroyed_by_worker :
    ∃ past s, (machine 1 String Unit).Run past s ∧ DestroyedOnce past s 0 := by
  obtain ⟨past, s, run, seen⟩ := Machine.exists_run_of_exec (M := machine 1 String Unit)
    (p := fun r => decide (r.2.stage 0 = .returned) &&
      decide ((r.2.futures 0).call 0 = .returned) &&
      r.1.all fun e => match e.2 with
        | .addCleanup i _ => ((e.1.futures i).loaded 0).isNone
        | _ => true)
    ([.execute "multiply" (some 5), .enqueue 0 0 none, .pop 0 .pop, .pop 0 .return, .work 0 .call,
      .addCleanup 0 0] ++ (executorTurn 0 (some 15) 1).drop 3) (by decide)
  simp only [Bool.and_eq_true, decide_eq_true_eq, List.all_eq_true] at seen
  obtain ⟨⟨returned, finished⟩, early⟩ := seen
  refine ⟨past, s, run, (destroyedOnce_iff run (by simp [returned, Stage.isReturned]) finished).2
    ?_⟩
  intro e recorded link registered
  have here := early e recorded
  rw [registered] at here
  exact Option.isNone_iff_eq_none.1 here

/-- The worker is through with the closure before the caller registers the cleanup:
the promise is never destroyed. -/
theorem promise_leaked :
    ∃ past s, (machine 1 String Unit).Run past s ∧ (s.stage 0).isReturned = true ∧
      (s.futures 0).call 0 = .returned ∧ s.worker 0 = .popping ∧ ¬ DestroyedOnce past s 0 := by
  obtain ⟨past, s, run, seen⟩ := Machine.exists_run_of_exec (M := machine 1 String Unit)
    (p := fun r => decide (r.2.stage 0 = .returned) &&
      decide ((r.2.futures 0).call 0 = .returned) &&
      decide (r.2.worker 0 = .popping) && decide (r.2.destroyedPromises = []))
    ([.execute "multiply" (some 5), .enqueue 0 0 none] ++ executorTurn 0 (some 15) 0 ++
      [.addCleanup 0 0]) (by decide)
  simp only [Bool.and_eq_true, decide_eq_true_eq] at seen
  obtain ⟨⟨⟨returned, finished⟩, popping⟩, none_⟩ := seen
  refine ⟨past, s, run, by simp [returned, Stage.isReturned], finished, popping, ?_⟩
  rintro ⟨once, -⟩
  simp [none_] at once

end Pool

end Cfutures
