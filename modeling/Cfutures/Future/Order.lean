/-
# Future.Order -- in which order callbacks run, how often, and in how many steps

Registrations are pushed at the head of the list and a settling call walks it from
there, so it runs the callbacks registered before it read the list head, the latest
first (`runs_latest_first`).  Every settling call walks anew: after any number of them
a callback has run once for each that had not read the head when it was registered
(`runs_once_per_call`).

A walk takes no mutex.  Outside its callbacks it has its next step whatever the other
threads do, and is through after two steps for each of them and three more
(`walk_wait_free`); it waits for its callbacks to return, which only the callbacks can say.
-/
import Cfutures.Future.Registration
import Mathlib.Algebra.BigOperators.Group.Finset.Piecewise
import Mathlib.Data.List.TakeWhile

namespace Cfutures

open Cfutures.Theory

set_option autoImplicit false

universe u

/-- The steps a settling call has taken past its critical section, from its place and
the number of callbacks it has run. -/
def Settler.stepsTaken (ran : Nat) : Settler → Nat
  | .idle | .settled => 0
  | .asserted => 1
  | .walking _ => 2 * ran + 2
  | .executing _ => 2 * ran + 1
  | .returned => 2 * ran + 3

theorem Settler.stepsTaken_le (ran : Nat) (place : Settler) :
    place.stepsTaken ran ≤ 2 * ran + 3 := by
  cases place <;> simp only [stepsTaken] <;> omega

namespace SharedFuture

variable {φ : Type u} {s t : SharedFuture φ} {order l : List Addr} {k : Nat} {link : Addr}
variable {past : List (SharedFuture φ × FutureAction φ)}

/-- The callbacks registered, in order. -/
def registered (past : List (SharedFuture φ × FutureAction φ)) : List Addr :=
  past.filterMap fun e => registers e.2

/-- The action is settling call `k` reading the list head. -/
def loads (k : Nat) : FutureAction φ → Bool
  | .walk j .load => decide (j = k)
  | _ => false

/-- The steps before settling call `k` read the list head. -/
def beforeLoad (past : List (SharedFuture φ × FutureAction φ)) (k : Nat) :
    List (SharedFuture φ × FutureAction φ) :=
  past.takeWhile fun e => !loads k e.2

/-- The action is a step of settling call `k`. -/
def walks (k : Nat) : FutureAction φ → Bool
  | .walk j _ => decide (j = k)
  | _ => false

/-! ## The list is the registrations, the latest first -/

theorem Walks.step_registers (walks : s.Walks order) {a : FutureAction φ}
    (stepped : s.step a = some t) : t.Walks ((registers a).toList ++ order) := by
  obtain ⟨-, ⟨o, rfl, rfl⟩ | ⟨k, w, rfl, walked⟩ | ⟨link, callbackFn, args, rfl, added⟩ |
    ⟨waiting, waits⟩⟩ := step_cases stepped
  · exact walks.settleStep o
  · exact (walks.walkStep walked).1
  · exact (walks.addCallbackStep added).1
  · have nothing : registers a = none := by
      cases a with
      | addCallback => cases waiting
      | _ => rfl
    rw [nothing]
    exact (walks.onlyWaits waits).1

theorem run_order (run : (machine φ).Run past s) : s.Walks (registered past).reverse := by
  induction run with
  | none => exact start_walks
  | @step past s a t before stepped ih =>
      have onward := ih.step_registers stepped
      have added : registered (past ++ [(s, a)]) = registered past ++ (registers a).toList := by
        cases here : registers a <;> simp [registered, here]
      rw [added, List.reverse_append]
      cases here : registers a <;> simpa [here] using onward

/-- The list head is read by the step that says so. -/
theorem step_loads {a : FutureAction φ} (stepped : s.step a = some t) :
    if loads k a = true then t.loaded k = some s.future.callbacks ∧ t.records = s.records
    else t.loaded k = s.loaded k := by
  obtain ⟨-, ⟨o, rfl, rfl⟩ | ⟨j, w, rfl, walked⟩ | ⟨link, callbackFn, args, rfl, added⟩ |
    ⟨waiting, waits⟩⟩ := step_cases stepped
  · simp [loads, settleStep]
  · rcases walkStep_cases walked with ⟨fails, rfl⟩ | ⟨rfl, -, -, rfl⟩ | ⟨rfl, -, rfl⟩ |
      ⟨_, _, rfl, -, -, -, rfl⟩ | ⟨_, _, rfl, -, -, rfl⟩ | ⟨rfl, -, rfl⟩
    · cases w with
      | load => exact fails.elim
      | _ => simp [loads]
    · simp [loads]
    · by_cases same : j = k
      · simp [loads, same]
      · simp [loads, same, Ne.symm same]
    · simp [loads]
    · simp [loads]
    · simp [loads]
  · obtain ⟨-, rfl⟩ := addCallbackStep_cases added
    simp [loads]
  · have not : loads k a = false := by
      cases a with
      | walk => cases waiting
      | _ => rfl
    simp [not, waits.loaded]

/-- What a settling call has read is what was registered before. -/
theorem run_loaded (run : (machine φ).Run past s) (k : Nat) :
    (s.loaded k = none ∧ ∀ e ∈ past, loads k e.2 = false) ∨
      (s.Snapshot k (registered (beforeLoad past k)).reverse ∧ ∃ e ∈ past, loads k e.2 = true) := by
  induction run with
  | none => exact Or.inl ⟨rfl, by simp⟩
  | @step past s a t before stepped ih =>
      have read := step_loads (k := k) stepped
      have order := run_order before
      rcases ih with ⟨unread, never⟩ | ⟨snapshot, e, recorded, reads⟩
      · by_cases now : loads k a = true
        · right
          simp only [now, if_true] at read
          have until_ : beforeLoad (past ++ [(s, a)]) k = past := by
            rw [beforeLoad, List.takeWhile_append_of_pos (by simpa using never)]
            simp [now]
          refine ⟨⟨_, read.1, ?_⟩, (s, a), by simp, now⟩
          rw [until_, read.2]
          exact order.chain
        · left
          simp only [now] at read
          refine ⟨read.trans unread, ?_⟩
          intro e member
          rcases List.mem_append.1 member with earlier | last
          · exact never e earlier
          · rw [List.mem_singleton.1 last]
            simpa using now
      · right
        have until_ : beforeLoad (past ++ [(s, a)]) k = beforeLoad past k := by
          rw [beforeLoad, beforeLoad, List.takeWhile_append, if_neg]
          intro whole
          have same := (List.takeWhile_sublist _).eq_of_length whole
          have kept := List.mem_takeWhile_imp (same.symm ▸ recorded)
          simp [reads] at kept
        refine ⟨?_, e, List.mem_append_left _ recorded, reads⟩
        rw [until_]
        exact (order.step stepped).1.snapshot snapshot

/-- A settling call that has returned has run what it read from the list head. -/
theorem executedBy_of_returned (run : (machine φ).Run past s) {k : Nat}
    (done : s.call k = .returned) : s.executedBy k = (registered (beforeLoad past k)).reverse := by
  obtain ⟨head, read, chain⟩ := (run_order run).returned_snapshot done
  rcases run_loaded run k with ⟨unread, -⟩ | ⟨snapshot, -⟩
  · rw [unread] at read
    cases read
  · exact Snapshot.unique ⟨head, read, chain⟩ snapshot

/-- And until then some of it. -/
theorem executedBy_earlier (run : (machine φ).Run past s) (k : Nat) :
    s.executedBy k <+: (registered (beforeLoad past k)).reverse := by
  by_cases ran : s.executedBy k = []
  · exact ran ▸ List.nil_prefix
  · obtain ⟨head, rest, read, chain⟩ := (run_order run).reading k ran
    rcases run_loaded run k with ⟨unread, -⟩ | ⟨snapshot, -⟩
    · rw [unread] at read
      cases read
    · rw [snapshot.unique ⟨head, read, chain⟩]
      exact List.prefix_append _ _

/-- **A settling call runs the callbacks registered before it read the list head, the
latest first**: some of them until it has returned, and then all. -/
theorem runs_latest_first (run : (machine φ).Run past s) (k : Nat) :
    s.executedBy k <+: (registered (beforeLoad past k)).reverse ∧
      (s.call k = .returned →
        s.executedBy k = (registered (beforeLoad past k)).reverse) :=
  ⟨executedBy_earlier run k, executedBy_of_returned run⟩

/-- The third registration comes when the walk is under way: the two before it run, the
second one first. -/
theorem runs_latest_first_two :
    ∃ past s, (machine Unit).Run past s ∧ s.call 0 = .returned ∧
      registered past = [4, 5, 6] ∧ s.executedBy 0 = [5, 4] := by
  obtain ⟨past, s, run, seen⟩ := Machine.exists_run_of_exec (M := machine Unit)
    (p := fun r => decide (r.2.call 0 = .returned) && decide (registered r.1 = [4, 5, 6]) &&
      decide (registered (beforeLoad r.1 0) = [4, 5]))
    [.addCallback 4 (some ()) (some 7), .addCallback 5 (some ()) (some 8),
      .settle (.fulfill none), .walk 0 .assertResolved, .walk 0 .load, .walk 0 .execute,
      .addCallback 6 (some ()) (some 9), .walk 0 .next, .walk 0 .execute, .walk 0 .next,
      .walk 0 .finish] (by decide)
  simp only [Bool.and_eq_true, decide_eq_true_eq] at seen
  obtain ⟨⟨done, three⟩, two⟩ := seen
  have ran := (runs_latest_first run 0).2 done
  rw [two] at ran
  exact ⟨past, s, run, done, three, ran⟩

/-! ## How often a callback runs -/

/-- Executions, counted call by call. -/
theorem timesRun_eq_sum (s : SharedFuture φ) (link : Addr) {n : Nat}
    (calls : ∀ x ∈ s.executed, x.call < n) :
    s.timesRun link = ∑ k ∈ Finset.range n, (s.executedBy k).count link := by
  unfold timesRun executedBy
  generalize s.executed = executed at calls
  induction executed with
  | nil => simp
  | cons x rest ih =>
      have here : x.call < n := calls x List.mem_cons_self
      have onward := ih fun y member => calls y (List.mem_cons_of_mem x member)
      have split : ∀ k, (((x :: rest).filter fun y => decide (y.call = k)).map
          Execution.callback).count link =
          ((rest.filter fun y => decide (y.call = k)).map Execution.callback).count link +
            if k = x.call then [x.callback].count link else 0 := by
        intro k
        by_cases same : x.call = k
        · simp [same, List.count_cons]
        · simp [same, Ne.symm same]
      rw [List.map_cons, List.count_cons, onward]
      simp only [split, Finset.sum_add_distrib, Finset.sum_ite_eq', Finset.mem_range, here, if_true]
      simp [List.count_cons]

/-- **A callback runs once for each settling call that had not read the list head when it
was registered**, when all have returned, and for no other. -/
theorem runs_once_per_call (run : (machine φ).Run past s)
    (done : ∀ k < s.outcomes.length, s.call k = .returned)
    {e : SharedFuture φ × FutureAction φ} (recorded : e ∈ past)
    (registered : registers e.2 = some link) :
    s.timesRun link =
      ((Finset.range s.outcomes.length).filter fun k => e.1.loaded k = none).card := by
  obtain ⟨order, walks⟩ := run_walks run
  rw [timesRun_eq_sum s link fun x ran => walks.call_lt ran, Finset.card_filter]
  apply Finset.sum_congr rfl
  intro k early
  have snapshot := walks.returned_snapshot (done k (Finset.mem_range.1 early))
  rw [(walks.executedBy_nodup k).count]
  simp only [registered_mem_snapshot run recorded registered snapshot]

/-- Fulfilled, then rejected, with a registration between the two walks. -/
theorem runs_once_per_call_two :
    ∃ past s, (machine Unit).Run past s ∧ s.outcomes.length = 2 ∧
      s.timesRun 4 = 2 ∧ s.timesRun 5 = 1 := by
  obtain ⟨past, s, run, seen⟩ := Machine.exists_run_of_exec (M := machine Unit)
    (p := fun r => decide (r.2.outcomes.length = 2) &&
      decide (∀ k < r.2.outcomes.length, r.2.call k = .returned) &&
      (r.1.any fun e => decide (registers e.2 = some 4) &&
        decide (((Finset.range r.2.outcomes.length).filter fun k => e.1.loaded k = none).card
          = 2)) &&
      r.1.any fun e => decide (registers e.2 = some 5) &&
        decide (((Finset.range r.2.outcomes.length).filter fun k => e.1.loaded k = none).card = 1))
    [.addCallback 4 (some ()) (some 7), .settle (.fulfill none), .walk 0 .assertResolved,
      .walk 0 .load, .addCallback 5 (some ()) (some 8), .walk 0 .execute, .walk 0 .next,
      .walk 0 .finish, .settle (.reject 3), .walk 1 .assertResolved, .walk 1 .load,
      .walk 1 .execute, .walk 1 .next, .walk 1 .execute, .walk 1 .next, .walk 1 .finish]
    (by decide)
  simp only [Bool.and_eq_true, decide_eq_true_eq, List.any_eq_true] at seen
  obtain ⟨⟨⟨two, done⟩, d, member, first, twice⟩, e, member', second, once⟩ := seen
  exact ⟨past, s, run, two, (runs_once_per_call run done member first).trans twice,
    (runs_once_per_call run done member' second).trans once⟩

/-! ## How many steps a walk takes -/

theorem step_stepsTaken (walks : s.Walks order) {a : FutureAction φ} (stepped : s.step a = some t)
    (alive : t.aborted = false) :
    (t.call k).stepsTaken (t.executedBy k).length =
      (s.call k).stepsTaken (s.executedBy k).length + (SharedFuture.walks k a).toNat := by
  have walked := walks.walked k
  obtain ⟨-, ⟨o, rfl, rfl⟩ | ⟨j, w, rfl, walked'⟩ | ⟨link, callbackFn, args, rfl, added⟩ |
    ⟨waiting, waits⟩⟩ := step_cases stepped
  · by_cases new : k = s.outcomes.length
    · have idle : s.call k = .idle := walks.pending k (Nat.le_of_eq new.symm)
      subst new
      simp [settleStep, idle, Settler.stepsTaken, SharedFuture.walks]
    · simp [settleStep, new, executedBy, SharedFuture.walks]
  · by_cases same : j = k
    · subst same
      rcases walkStep_cases walked' with ⟨-, rfl⟩ | ⟨-, place, -, rfl⟩ | ⟨-, place, rfl⟩ |
        ⟨callback, _, -, place, -, -, rfl⟩ | ⟨_, _, -, place, -, rfl⟩ | ⟨-, place, rfl⟩
      · cases alive
      · simp [place, Settler.stepsTaken, SharedFuture.walks]
      · rw [place] at walked
        have none_ : (s.executedBy j).length = 0 := List.length_eq_zero_iff.2 walked.2
        simp only [executedBy] at none_
        simp [place, Settler.stepsTaken, SharedFuture.walks, executedBy, none_]
      · have ran := executedBy_append (s := s) (k := j) ⟨j, callback, s.future.isResolved⟩
        simp only [executedBy, if_true] at ran
        simp only [executedBy, place, Function.update_self, Settler.stepsTaken, SharedFuture.walks,
          ran, List.length_append, List.length_singleton, decide_true, Bool.toNat_true]
        omega
      · simp [place, Settler.stepsTaken, SharedFuture.walks, executedBy]
      · simp [place, Settler.stepsTaken, SharedFuture.walks, executedBy]
    · rcases walkStep_cases walked' with ⟨-, rfl⟩ | ⟨-, place, -, rfl⟩ | ⟨-, place, rfl⟩ |
        ⟨_, _, -, place, -, -, rfl⟩ | ⟨_, _, -, place, -, rfl⟩ | ⟨-, place, rfl⟩ <;>
        simp [SharedFuture.walks, same, Ne.symm same, executedBy]
  · obtain ⟨-, rfl⟩ := addCallbackStep_cases added
    simp [SharedFuture.walks, executedBy]
  · have not : SharedFuture.walks k a = false := by
      cases a with
      | walk => cases waiting
      | _ => rfl
    simp [not, waits.call, waits.executed, executedBy]

theorem run_stepsTaken (run : (machine φ).Run past s) (alive : s.aborted = false) (k : Nat) :
    (past.countP fun e => walks k e.2) = (s.call k).stepsTaken (s.executedBy k).length := by
  induction run with
  | none => rfl
  | @step past s a t before stepped ih =>
      have earlier : s.aborted = false := (step_cases stepped).1
      rw [List.countP_append, ih earlier, step_stepsTaken (run_order before) stepped alive,
        List.countP_singleton]
      cases walks k a <;> rfl

/-- A call that has settled is past its critical section. -/
theorem run_begun (run : (machine φ).Run past s) (early : k < s.outcomes.length) :
    s.call k ≠ .idle := by
  induction run with
  | none => cases early
  | @step past s a t before stepped ih =>
      obtain ⟨-, ⟨o, rfl, rfl⟩ | ⟨j, w, rfl, walked⟩ | ⟨link, callbackFn, args, rfl, added⟩ |
        ⟨waiting, waits⟩⟩ := step_cases stepped
      · by_cases new : k = s.outcomes.length
        · simp [settleStep, new]
        · have older : k < s.outcomes.length := by
            simp only [settleStep, List.length_append, List.length_singleton] at early
            omega
          simpa [settleStep, new] using ih older
      · have moved : ∀ place : Settler, place ≠ .idle → s.call k ≠ .idle →
            Function.update s.call j place k ≠ .idle := by
          intro place active other
          by_cases same : k = j
          · simpa [same] using active
          · simpa [same] using other
        rcases walkStep_cases walked with ⟨-, rfl⟩ | ⟨-, -, -, rfl⟩ | ⟨-, -, rfl⟩ |
          ⟨_, _, -, -, -, -, rfl⟩ | ⟨_, _, -, -, -, rfl⟩ | ⟨-, -, rfl⟩
        · exact ih early
        all_goals exact moved _ (by simp) (ih early)
      · obtain ⟨-, rfl⟩ := addCallbackStep_cases added
        exact ih early
      · rw [waits.outcomes] at early
        rw [waits.call]
        exact ih early

/-- A settling call that has begun and not returned has a step to take. -/
theorem Walks.exists_walkStep (walks : s.Walks order) (begun : s.call k ≠ .idle)
    (pending : s.call k ≠ .returned) : ∃ step t, s.walkStep k step = some t := by
  have walked := walks.walked k
  cases place : s.call k with
  | idle => exact absurd place begun
  | settled =>
      refine ⟨.assertResolved, Option.isSome_iff_exists.1 ?_⟩
      by_cases resolved : futureIsResolved s.future = true <;>
        simp [SharedFuture.walkStep, place, resolved]
  | asserted => exact ⟨.load, Option.isSome_iff_exists.1 (by simp [SharedFuture.walkStep, place])⟩
  | walking p =>
      cases p with
      | none => exact ⟨.finish, Option.isSome_iff_exists.1 (by simp [SharedFuture.walkStep, place])⟩
      | some callback =>
          rw [place] at walked
          obtain ⟨head, rest, -, -, ahead⟩ := walked
          obtain ⟨record, rest', -, present, -⟩ := Chain.some_iff.1 ahead
          exact ⟨.execute, Option.isSome_iff_exists.1
            (by simp [SharedFuture.walkStep, place, present])⟩
  | executing callback =>
      rw [place] at walked
      obtain ⟨head, rest, record, -, -, -, present, -⟩ := walked
      exact ⟨.next, Option.isSome_iff_exists.1 (by simp [SharedFuture.walkStep, place, present])⟩
  | returned => exact absurd place pending

theorem executing_of_next (walked : s.walkStep k .next = some t) :
    ∃ callback, s.call k = .executing callback := by
  simp only [SharedFuture.walkStep] at walked
  split at walked
  · exact ⟨_, by assumption⟩
  · cases walked

/-- **A walk waits for nothing but its callbacks.**  A settling call that has begun is inside
a callback, whose return is its next step, or has its next step to take.  It is through
exactly when it has taken three and two for each callback registered before it read the
list head; no other thread adds one. -/
theorem walk_wait_free (run : (machine φ).Run past s) (alive : s.aborted = false) (k : Nat) :
    (k < s.outcomes.length → s.call k ≠ .returned →
      (∃ callback t, s.call k = .executing callback ∧ s.step (.walk k .next) = some t) ∨
        ∃ step t, step ≠ .next ∧ s.step (.walk k step) = some t) ∧
      (past.countP fun e => walks k e.2) ≤ 2 * (registered (beforeLoad past k)).length + 3 ∧
      (s.call k = .returned ↔
        (past.countP fun e => walks k e.2) = 2 * (registered (beforeLoad past k)).length + 3) := by
  have count := run_stepsTaken run alive k
  have bound := (executedBy_earlier run k).length_le
  rw [List.length_reverse] at bound
  refine ⟨?_, ?_, ?_⟩
  · intro early pending
    obtain ⟨step, t, walked⟩ :=
      (run_order run).exists_walkStep (run_begun run early) pending
    have taken : s.step (.walk k step) = some t := by simp [SharedFuture.step, alive, walked]
    by_cases onward : step = .next
    · subst onward
      obtain ⟨callback, inside⟩ := executing_of_next walked
      exact Or.inl ⟨callback, t, inside, taken⟩
    · exact Or.inr ⟨step, t, onward, taken⟩
  · rw [count]
    cases s.call k <;> simp only [Settler.stepsTaken] <;> omega
  · rw [count]
    constructor
    · intro done
      have all := congrArg List.length (executedBy_of_returned run done)
      rw [List.length_reverse] at all
      rw [done, Settler.stepsTaken, all]
    · intro enough
      cases place : s.call k with
      | returned => rfl
      | _ =>
          simp only [place, Settler.stepsTaken] at enough
          omega

/-- Two callbacks, a third registered too late, and a second settling call in between. -/
theorem walk_wait_free_seven :
    ∃ past s, (machine Unit).Run past s ∧ s.call 0 = .returned ∧
      (past.countP fun e => walks 0 e.2) = 7 := by
  obtain ⟨past, s, run, seen⟩ := Machine.exists_run_of_exec (M := machine Unit)
    (p := fun r => decide (r.2.call 0 = .returned) && !r.2.aborted &&
      decide ((registered (beforeLoad r.1 0)).length = 2))
    [.addCallback 4 (some ()) (some 7), .addCallback 5 (some ()) (some 8),
      .settle (.fulfill none), .walk 0 .assertResolved, .walk 0 .load, .walk 0 .execute,
      .addCallback 6 (some ()) (some 9), .settle (.reject 2), .walk 1 .assertResolved,
      .walk 0 .next, .walk 1 .load, .walk 0 .execute, .walk 0 .next, .walk 0 .finish] (by decide)
  simp only [Bool.and_eq_true, decide_eq_true_eq, Bool.not_eq_true'] at seen
  obtain ⟨⟨done, alive⟩, two⟩ := seen
  have enough := (walk_wait_free run alive 0).2.2.1 done
  rw [two] at enough
  exact ⟨past, s, run, done, enough⟩

end SharedFuture

end Cfutures
