/-
# Pool.Projection -- the queue and the futures inside a run of the pool

A run of the pool, seen through its work queue, is a run of the `WorkQueue`
machine with the workers as consumers; seen through any one of its futures it is a
run of the `SharedFuture` machine.  Everything proved of every run of those two
holds of every pool (`run_queue`, `run_future`).
-/
import Cfutures.Pool.Basic

namespace Cfutures

open Cfutures.Theory

set_option autoImplicit false

universe u v

/-- The moves of a worker. -/
inductive Worker.Next : Worker → Worker → Prop
  | fetched {c} : Next .popping (.fetched c)
  | called {c} : Next (.fetched c) (.running c)
  | ran {c value} : Next (.running c) (.ran c value)
  | fulfilling {c f value} : Next (.ran c value) (.fulfilling c f value)
  | settling {c f k value} : Next (.fulfilling c f value) (.settling c f k)
  | releasing {c f k} : Next (.settling c f k) (.releasing c)
  | popping {c} : Next (.releasing c) .popping
  | endedWaiting {woken} : Next .popping (.terminated (.waiting woken))
  | endedTask {c} : Next (.running c) (.terminated (.task c))
  | endedCallback {c f k} : Next (.settling c f k) (.terminated (.callback c))

namespace Pool

variable {n : Nat} {F : Type u} {U : Type v} {s t : Pool n F U}
variable {past : List (Pool n F U × PoolAction n F U)}

/-- What an action does to the work queue. -/
def queueAction (_ : Pool n F U) : PoolAction n F U → Option (QueueAction (Fin n) Addr)
  | .enqueue i item wake => some (.enqueue item i wake)
  | .pop w .pop => some (.pop w)
  | .pop w .return => some (.return w)
  | .pop w .spurious => some (.spurious w)
  | .cancelled w (.wait heir) => some (.cancel w heir)
  | _ => none

/-- What an action does to future `i`. -/
def futureAction (i : Addr) (s : Pool n F U) :
    PoolAction n F U → Option (FutureAction (CallbackFn U))
  | .addCleanup j link =>
      if j = i then some (.addCallback link (some .cleanupExecute) (some j)) else none
  | .client j a => if j = i then some a.onFuture else none
  | .work w .settle =>
      match s.worker w with
      | .fulfilling _ f value => if f = i then some (.settle (.fulfill value)) else none
      | _ => none
  | .work w (.walk step) =>
      match s.worker w with
      | .settling _ f k => if f = i then some (.walk k step) else none
      | _ => none
  | _ => none

theorem projects_queue : Machine.Projects (machine n F U) (WorkQueue.machine (Fin n) Addr)
    Pool.workQueue queueAction := by
  intro s a t stepped
  cases step_takes stepped with
  | enqueue _ taken => exact taken
  | pop _ taken => exact taken
  | «return» _ taken => exact Option.map_eq_some_iff.2 ⟨_, taken, rfl⟩
  | spurious _ taken => exact taken
  | cancelledWait _ _ taken => exact taken
  | _ => rfl

/-- A step of future `j`, seen at future `i`. -/
theorem update_future {i j : Addr} {future : SharedFuture (CallbackFn U)}
    {a : FutureAction (CallbackFn U)} (taken : (s.futures j).step a = some future) :
    (SharedFuture.machine (CallbackFn U)).Moves (s.futures i) (if j = i then some a else none)
      (Function.update s.futures j future i) := by
  by_cases same : j = i
  · subst same
    simpa [Machine.Moves, SharedFuture.machine] using taken
  · simp [Machine.Moves, same, Ne.symm same]

theorem projects_future (i : Addr) : Machine.Projects (machine n F U)
    (SharedFuture.machine (CallbackFn U)) (fun s => s.futures i) (futureAction i) := by
  intro s a t stepped
  cases step_takes stepped with
  | addCleanup _ taken => exact update_future taken
  | client _ taken => exact update_future taken
  | settle place taken =>
      simp only [futureAction, place]
      exact update_future taken
  | walk place taken =>
      simp only [futureAction, place]
      exact update_future taken
  | _ => rfl

/-- What a step does to the stages of the submissions. -/
theorem step_stage {a : PoolAction n F U} (stepped : s.step a = some t) :
    t.stage = s.stage ∨
      (∃ fn args, a = .execute fn args ∧
        t.stage = Function.update s.stage s.submissions.length .created) ∨
      (∃ i item wake, a = .enqueue i item wake ∧ s.stage i = .created ∧
        t.stage = Function.update s.stage i .enqueued) ∨
      (∃ i link, a = .addCleanup i link ∧ s.stage i = .enqueued ∧
        t.stage = Function.update s.stage i .returned) ∨
      (∃ i, a = .destroyFuture i ∧ s.stage i = .returned ∧
        (∃ r ∈ (s.futures i).returns, r.waiter = 0) ∧
        t.stage = Function.update s.stage i .destroyed) := by
  cases step_takes stepped with
  | execute => exact Or.inr (Or.inl ⟨_, _, rfl, rfl⟩)
  | enqueue created => exact Or.inr (Or.inr (Or.inl ⟨_, _, _, rfl, created, rfl⟩))
  | addCleanup enqueued =>
      exact Or.inr (Or.inr (Or.inr (Or.inl ⟨_, _, rfl, enqueued, rfl⟩)))
  | destroyFuture returned waited =>
      exact Or.inr (Or.inr (Or.inr (Or.inr ⟨_, rfl, returned, waited, rfl⟩)))
  | _ => exact Or.inl rfl

/-- At most one worker moves. -/
theorem step_worker {a : PoolAction n F U} (stepped : s.step a = some t) :
    t.worker = s.worker ∨
      ∃ w place, (s.worker w).Next place ∧ t.worker = Function.update s.worker w place := by
  cases step_takes stepped with
  | «return» popping => exact Or.inr ⟨_, _, popping ▸ .fetched, rfl⟩
  | call place => exact Or.inr ⟨_, _, place ▸ .called, rfl⟩
  | ret place => exact Or.inr ⟨_, _, place ▸ .ran, rfl⟩
  | fulfill place => exact Or.inr ⟨_, _, place ▸ .fulfilling, rfl⟩
  | settle place => exact Or.inr ⟨_, _, place ▸ .settling, rfl⟩
  | @walk w step c f k future place =>
      by_cases last : step = .finish
      · exact Or.inr ⟨w, .releasing c, place ▸ .releasing, if_pos last⟩
      · exact Or.inl (if_neg last)
  | free place => exact Or.inr ⟨_, _, place ▸ .popping, rfl⟩
  | cancelledWait _ popping => exact Or.inr ⟨_, _, popping ▸ .endedWaiting, rfl⟩
  | cancelledTask _ place => exact Or.inr ⟨_, _, place ▸ .endedTask, rfl⟩
  | cancelledCallback _ place => exact Or.inr ⟨_, _, place ▸ .endedCallback, rfl⟩
  | _ => exact Or.inl rfl

/-- Who does what to a future. -/
theorem futureAction_cases {i : Addr} {a : PoolAction n F U} {b : FutureAction (CallbackFn U)}
    (named : s.futureAction i a = some b) :
    (∃ link, a = .addCleanup i link ∧ b = .addCallback link (some .cleanupExecute) (some i)) ∨
      (∃ c, a = .client i c ∧ b = c.onFuture) ∨
      (∃ w c value, a = .work w .settle ∧ s.worker w = .fulfilling c i value ∧
        b = .settle (.fulfill value)) ∨
      (∃ w c k step, a = .work w (.walk step) ∧ s.worker w = .settling c i k ∧
        b = .walk k step) := by
  cases a with
  | addCleanup j link =>
      obtain ⟨rfl, same⟩ := Option.ite_none_right_eq_some.1 named
      exact Or.inl ⟨link, rfl, (Option.some.inj same).symm⟩
  | client j c =>
      obtain ⟨rfl, same⟩ := Option.ite_none_right_eq_some.1 named
      exact Or.inr (Or.inl ⟨c, rfl, (Option.some.inj same).symm⟩)
  | work w a =>
      cases a with
      | settle =>
          simp only [futureAction] at named
          split at named
          · rename_i c f value place
            obtain ⟨rfl, same⟩ := Option.ite_none_right_eq_some.1 named
            exact Or.inr (Or.inr (Or.inl ⟨w, c, value, rfl, place, (Option.some.inj same).symm⟩))
          · cases named
      | walk step =>
          simp only [futureAction] at named
          split at named
          · rename_i c f k place
            obtain ⟨rfl, same⟩ := Option.ite_none_right_eq_some.1 named
            exact Or.inr (Or.inr (Or.inr ⟨w, c, k, step, rfl, place, (Option.some.inj same).symm⟩))
          · cases named
      | _ => cases named
  | _ => cases named

/-- A future is settled by a worker that is about to, and with its value. -/
theorem settle_of_action {i : Addr} {a : PoolAction n F U} {o : Outcome}
    (named : s.futureAction i a = some (.settle o)) :
    ∃ w c value, s.worker w = .fulfilling c i value ∧ a = .work w .settle := by
  obtain ⟨_, -, same⟩ | ⟨c, -, same⟩ | ⟨w, c, value, rfl, place, -⟩ | ⟨_, _, _, _, -, -, same⟩ :=
    futureAction_cases named
  · cases same
  · cases c <;> cases same
  · exact ⟨w, c, value, place, rfl⟩
  · cases same

/-- A walk on a future goes on by the worker that is settling it. -/
theorem walk_of_action {i : Addr} {a : PoolAction n F U} {k : Nat} {step : WalkStep}
    (named : s.futureAction i a = some (.walk k step)) :
    ∃ w c, s.worker w = .settling c i k ∧ a = .work w (.walk step) := by
  obtain ⟨_, -, same⟩ | ⟨c, -, same⟩ | ⟨_, _, _, -, -, same⟩ | ⟨w, c, k, step, rfl, place, same⟩ :=
    futureAction_cases named
  · cases same
  · cases c <;> cases same
  · cases same
  · cases same
    exact ⟨w, c, place, rfl⟩

/-- The work queue of a pool is a work queue. -/
theorem run_queue (run : (machine n F U).Run past s) :
    (WorkQueue.machine (Fin n) Addr).Run (Machine.projectPast Pool.workQueue queueAction past)
      s.workQueue :=
  Machine.Run.project (π := Pool.workQueue) (f := queueAction) rfl projects_queue run

/-- Every future of a pool is a future. -/
theorem run_future (run : (machine n F U).Run past s) (i : Addr) :
    (SharedFuture.machine (CallbackFn U)).Run
      (Machine.projectPast (fun s => s.futures i) (futureAction i) past) (s.futures i) :=
  Machine.Run.project (π := fun s : Pool n F U => s.futures i) (f := futureAction i) rfl
    (projects_future i) run

end Pool

end Cfutures
