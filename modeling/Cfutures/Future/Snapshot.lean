/-
# Future.Snapshot -- which registered callbacks a settling call runs, and what stops it

Without the environment's other threads the list a settling call reads is the
registrations so far, the latest first.  All of it runs (`settle_runs_registered`)
unless

* a callback calls `future_get` on a rejected future, or
* an argument was NULL: `future_add_callback` takes it, `callback_execute` asserts
  that it is not, and the callbacks registered earlier are never run
  (`null_args_abort`).
-/
import Mathlib.Data.List.TakeWhile
import Cfutures.Future.Reentry

namespace Cfutures

open Cfutures.Theory

set_option autoImplicit false

namespace CalledFuture

variable {φ : Type} {s : CalledFuture φ} {o : Outcome} (behave : Nat → φ → Ptr → Script φ)

/-- The registrations before the first in the list that is without an argument. -/
def beforeNull (l : List (φ × Ptr)) : List (φ × Ptr) := l.takeWhile fun r => r.2.isSome

theorem beforeNull_cons {r : φ × Ptr} (here : r.2 ≠ none) (rest : List (φ × Ptr)) :
    beforeNull (r :: rest) = r :: beforeNull rest :=
  List.takeWhile_cons_of_pos (Option.isSome_iff_ne_none.2 here)

theorem beforeNull_self {l : List (φ × Ptr)} (nonNull : ∀ r ∈ l, r.2 ≠ none) :
    beforeNull l = l :=
  List.takeWhile_eq_self_iff.2 fun r member => Option.isSome_iff_ne_none.2 (nonNull r member)

/-- None of the callbacks, run one after another from the `k`-th on, ends the process. -/
def AllReturn (o : Outcome) (k : Nat) (l : List (φ × Ptr)) : Prop :=
  ∀ j r, l[j]? = some r → (behave (k + j) r.1 r.2).getsRejected o = false

theorem AllReturn.cons {k : Nat} {r : φ × Ptr} {rest : List (φ × Ptr)}
    (returns : AllReturn behave o k (r :: rest)) :
    (behave k r.1 r.2).getsRejected o = false ∧ AllReturn behave o (k + 1) rest := by
  refine ⟨returns 0 r rfl, ?_⟩
  intro j x here
  rw [Nat.add_assoc, Nat.add_comm 1]
  exact returns (j + 1) x here

theorem allReturn_fulfill (value : Ptr) (k : Nat) (l : List (φ × Ptr)) :
    AllReturn behave (.fulfill value) k l :=
  fun _ _ _ => Script.getsRejected_fulfill value _

theorem fate_of_fit {k : Nat} {l : List (φ × Ptr)} (nonNull : ∀ r ∈ l, r.2 ≠ none)
    (returns : AllReturn behave o k l) : fate behave o k l = (l, none) := by
  induction l generalizing k with
  | nil => rfl
  | cons r rest ih =>
      obtain ⟨here, onward⟩ := returns.cons
      have rest' := ih (fun x member => nonNull x (List.mem_cons_of_mem _ member)) onward
      simp [fate, nonNull r, here, rest']

theorem fate_of_null {k : Nat} {l : List (φ × Ptr)} (null : ∃ r ∈ l, r.2 = none)
    (returns : AllReturn behave o k (beforeNull l)) :
    fate behave o k l = (beforeNull l, some .callbackArgs) := by
  induction l generalizing k with
  | nil => simp at null
  | cons r rest ih =>
      by_cases here : r.2 = none
      · simp [fate, beforeNull, here]
      · obtain ⟨x, member, isNull⟩ := null
        have later : x ∈ rest := (List.mem_cons.1 member).resolve_left fun same =>
          here (same ▸ isNull)
        rw [beforeNull_cons here] at returns ⊢
        obtain ⟨passes, onward⟩ := returns.cons
        simp [fate, here, passes, ih ⟨x, later, isNull⟩ onward]

/-- With arguments, only a callback's own `future_get` can end the process. -/
theorem fate_of_args {k : Nat} {l : List (φ × Ptr)} (nonNull : ∀ r ∈ l, r.2 ≠ none)
    {a : Assertion} (fails : (fate behave o k l).2 = some a) : a = .getFulfilled := by
  induction l generalizing k with
  | nil => cases fails
  | cons r rest ih =>
      have here := nonNull r (by simp)
      by_cases rejected : (behave k r.1 r.2).getsRejected o = true
      · simpa [fate, here, rejected, eq_comm] using fails
      · rw [Bool.not_eq_true] at rejected
        simp only [fate, here, rejected, if_false, Bool.false_eq_true] at fails
        exact ih (fun x member => nonNull x (List.mem_cons_of_mem _ member)) fails

/-- The registrations whose callbacks have run, in the order they ran. -/
def ran (s : CalledFuture φ) : List (φ × Ptr) := s.executed.map fun x => (x.fn, x.args)

theorem ran_eq {l : List (φ × Ptr)} (executed : s.executed = l.map ranFree) : s.ran = l := by
  simp [ran, executed, Function.comp_def, ranFree]

/-- **A settling call runs the registered callbacks, each once, the latest first,
whatever they do to the future**: it ends however many more they register, the mutex
is free while one runs, and their `future_get`s return the value.  After a reject they
must not call `future_get`, which asserts that the future was not rejected. -/
theorem settle_runs_registered (regs : List (φ × Ptr)) (nonNull : ∀ r ∈ regs, r.2 ≠ none)
    (o : Outcome) (noGet : ∀ rc, o = .reject rc → AllReturn behave o 0 regs.reverse)
    {turns : Nat} (enough : regs.length ≤ turns) :
    ∃ t, Leads (do registerAll regs; settlePromise behave turns o) start () t ∧
      t.ran = regs.reverse ∧ (∀ x ∈ t.executed, x.locked = false) ∧ t.locked = false ∧
      ∀ value, o = .fulfill value → ∀ v ∈ t.got, v = value := by
  obtain ⟨t, unlocked, executed, got, ends⟩ := settle_ends behave regs o enough
  have returns : AllReturn behave o 0 regs.reverse := by
    cases o with
    | fulfill value => exact allReturn_fulfill behave value 0 _
    | reject rc => exact noGet rc rfl
  rw [fate_of_fit behave (by simpa using nonNull) returns] at executed ends
  refine ⟨t, ends, ran_eq executed, ?_, unlocked, got⟩
  intro x member
  rw [executed] at member
  obtain ⟨r, -, rfl⟩ := List.mem_map.1 member
  rfl

/-- The first callback gets the value, the second registers itself again and waits. -/
theorem settle_runs_registered_again :
    ∃ t, Leads (do
        registerAll [(true, some 7), (false, some 8)]
        settlePromise (fun _ fn args => if fn then .get fun _ => .done
          else .addCallback (some fn) args (.wait .done)) 2 (.fulfill (some 5))) start () t ∧
      t.ran = [(false, some 8), (true, some 7)] := by
  obtain ⟨t, leads, ran, -⟩ := settle_runs_registered
    (fun _ fn args => if fn then .get fun _ => .done
      else .addCallback (some fn) args (.wait .done))
    [(true, some 7), (false, some 8)] (by decide) (.fulfill (some 5)) (by simp)
    (show 2 ≤ 2 by decide)
  exact ⟨t, leads, ran⟩

/-- One callback, which gets the value of its future, and a reject: the process ends
in the callback, with any number of turns. -/
theorem get_in_rejected_callback : ¬ ∃ turns t, Leads (do
    registerAll [((), some 7)]
    settlePromise (fun _ _ _ => .get fun _ => .done) turns (.reject 3)) start () t := by
  rintro ⟨turns, t, leads⟩
  cases turns with
  | zero =>
      have fails : Fails (do
          registerAll [((), some 7)]
          settlePromise (fun _ _ _ => .get fun _ => .done) 0 (.reject 3)) start .unfinished _ := rfl
      exact leads.not_fails fails
  | succ turns =>
      have fails : Fails (do
          registerAll [((), some 7)]
          settlePromise (fun _ _ _ => .get fun _ => .done) (turns + 1) (.reject 3)) start
          (.aborted .getFulfilled) _ := rfl
      exact leads.not_fails fails

/-- **Only a NULL argument stops the walk**: when every argument is set, no assertion
of `future_execute_callbacks` or `callback_execute` fails, and if the callbacks return
all of them run.  When one is NULL, and the callbacks registered after the last such one
return, exactly these run and the assertion in `callback_execute` ends the process. -/
theorem null_args_abort (regs : List (φ × Ptr)) (o : Outcome) {turns : Nat}
    (enough : regs.length ≤ turns) :
    ((∀ r ∈ regs, r.2 ≠ none) → ∀ a t,
        Fails (do registerAll regs; settlePromise behave turns o) start (.aborted a) t →
          a = .getFulfilled) ∧
      (AllReturn behave o 0 (beforeNull regs.reverse) →
        ((∀ r ∈ regs, r.2 ≠ none) →
          ∃ t, Leads (do registerAll regs; settlePromise behave turns o) start () t ∧
            t.ran = regs.reverse) ∧
        ((∃ r ∈ regs, r.2 = none) →
          ∃ t, Fails (do registerAll regs; settlePromise behave turns o) start
              (.aborted .callbackArgs) t ∧
            t.ran = beforeNull regs.reverse)) := by
  obtain ⟨t, -, executed, -, ends⟩ := settle_ends behave regs o enough
  refine ⟨fun nonNull a u fails => ?_, fun returns => ⟨fun nonNull => ?_, fun null => ?_⟩⟩
  · obtain ⟨stops, -⟩ := ends.fails_iff.1 fails
    obtain ⟨a', stops', same⟩ := Option.map_eq_some_iff.1 stops
    cases same
    exact fate_of_args behave (l := regs.reverse) (by simpa using nonNull) stops'
  · have fit : ∀ r ∈ regs.reverse, r.2 ≠ none := by simpa using nonNull
    rw [beforeNull_self fit] at returns
    rw [fate_of_fit behave fit returns] at executed ends
    exact ⟨t, ends, ran_eq executed⟩
  · rw [fate_of_null behave (by simpa using null) returns] at executed ends
    exact ⟨t, ends, ran_eq executed⟩

/-- Three callbacks and a rejection, the second without an argument: the third runs, and
no other, not even the first, which would call `future_get`. -/
theorem null_args_abort_second :
    ∃ t, Fails (do
        registerAll [(1, some 7), (0, none), (2, some 9)]
        settlePromise (fun _ fn _ => if fn = 1 then .get fun _ => .done else .done) 3 (.reject 3))
        start (.aborted .callbackArgs) t ∧
      t.ran = [(2, some 9)] := by
  have whole := null_args_abort (fun _ fn _ => if fn = 1 then .get fun _ => .done else .done)
    [(1, some 7), (0, none), (2, some 9)] (.reject 3) (show 3 ≤ 3 by decide)
  refine (whole.2 ?_).2 ⟨(0, none), by simp, rfl⟩
  rintro (_ | j) r here <;> cases here
  rfl

/-- A callback, then one without an argument, and either settling call: neither runs. -/
theorem null_args_accepted :
    (∃ t, Fails (do
          registerAll [(0, some 7), (1, none)]
          settlePromise (fun _ _ _ => .done) 2 (.fulfill (some 5))) start
        (.aborted .callbackArgs) t ∧ t.ran = []) ∧
      ∃ t, Fails (do
          registerAll [(0, some 7), (1, none)]
          settlePromise (fun _ _ _ => .done) 2 (.reject 3)) start
        (.aborted .callbackArgs) t ∧ t.ran = [] :=
  ⟨⟨_, rfl, rfl⟩, ⟨_, rfl, rfl⟩⟩

end CalledFuture

end Cfutures
