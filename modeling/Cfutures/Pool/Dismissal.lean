/-
# Pool.Dismissal -- the workers end one at a time, the latest created first

`future_pool_new` pushes every executor at the head of the list, and `executor_destroy`
joins the thread it has cancelled before the next one is looked at.  So a worker is asked
to end only when all workers created after it have ended (`run_inTurn`), and the workers
that have ended are at any time the latest ones, in the reverse order of their creation
(`ended_latest_first`).
-/
import Cfutures.Pool.Joining

namespace Cfutures

open Cfutures.Theory

set_option autoImplicit false

universe u v

namespace Pool

variable {n : Nat} {F : Type u} {U : Type v} {s t : Pool n F U} {w : Fin n} {l : List Addr}
variable {past : List (Pool n F U × PoolAction n F U)}

/-- The list goes down in the order of creation, and so do the requests. -/
structure InTurn (s : Pool n F U) : Prop where
  descending : ∀ l, Chain Executor.next s.records (s.destroyer.rest s.executors) l →
    l.Pairwise (· > ·)
  later : ∀ w, s.cancelRequested w = true → ∀ v, w < v → s.isTerminated v = true

theorem finRange_descending (n : Nat) : (List.finRange n).reverse.Pairwise (· > ·) :=
  List.pairwise_reverse.2 (List.pairwise_lt_finRange n)

theorem start_inTurn : (start n F U).InTurn where
  descending l chain := by
    have lists := futurePoolCreate_lists fun _ : Fin n => true
    rw [show l = _ from Chain.unique chain lists.chain]
    exact (finRange_descending n).map Fin.val fun _ _ below => below
  later w requested := by simp [start] at requested

theorem InTurn.of_aside (inTurn : s.InTurn) (records : t.records = s.records)
    (rest : t.destroyer.rest t.executors = s.destroyer.rest s.executors)
    (requested : t.cancelRequested = s.cancelRequested)
    (terminated : ∀ w, s.isTerminated w = true → t.isTerminated w = true) : t.InTurn where
  descending l chain := by
    rw [records, rest] at chain
    exact inTurn.descending l chain
  later w asked v below := terminated v (inTurn.later w (requested ▸ asked) v below)

/-- The executor at the head of the list is that of the last worker still there. -/
theorem InTurn.cancel (inTurn : s.InTurn) (torn : s.Torn l) (enlisted : s.Enlisted) {e : Addr}
    {next : Ptr} {executor : Executor n} (place : s.destroyer = .cancelling e next)
    (present : s.records e = some executor) (thread : executor.thread = some w) :
    InTurn { s with
      cancelRequested := Function.update s.cancelRequested w true
      destroyer := .joining e next } where
  descending l chain := inTurn.descending l (by rw [place]; exact chain)
  later u asked v below := by
    by_cases same : u = w
    · subst same
      by_contra alive
      obtain ⟨e', member, executor', present', thread'⟩ := torn.covers v (eq_false_of_ne_true alive)
      have chain := torn.chain
      have sorted := inTurn.descending l chain
      rw [place] at chain
      obtain ⟨_, rest, rfl, -, -⟩ := Chain.some_iff.1 chain
      obtain ⟨u', rfl, own⟩ := enlisted.own e executor present
      obtain ⟨v', rfl, own'⟩ := enlisted.own e' executor' present'
      rw [thread, Option.some.injEq] at own
      rw [thread', Option.some.injEq] at own'
      subst own own'
      rcases List.mem_cons.1 member with atHead | inRest
      · exact absurd (Fin.ext atHead) (ne_of_gt below)
      · have above : v.val < u.val := (List.pairwise_cons.1 sorted).1 v.val inRest
        exact absurd above (Nat.not_lt_of_lt below)
    · have before : s.cancelRequested u = true := by simpa [same] using asked
      exact inTurn.later u before v below

theorem InTurn.step (inTurn : s.InTurn) (torn : s.Torn l) (enlisted : s.Enlisted)
    {a : PoolAction n F U} (stepped : s.step a = some t) : t.InTurn := by
  rcases step_aside stepped with ⟨b, rfl⟩ | ⟨w, b, rfl⟩ | aside
  · cases step_takes stepped with
    | cancel place present thread => exact inTurn.cancel torn enlisted place present thread
    | join place =>
        obtain ⟨rest, rfl, -, onward⟩ := torn.joining place
        refine ⟨?_, inTurn.later⟩
        intro m chain
        obtain rfl : m = rest := Chain.unique chain onward
        exact (List.pairwise_cons.1 (inTurn.descending _ torn.chain)).2
    | destroy place | next place =>
        exact inTurn.of_aside rfl (by rw [place]; rfl) rfl fun _ gone => gone
    | @queueDestroy outcome place =>
        refine inTurn.of_aside rfl ?_ rfl fun _ gone => gone
        rw [Destroyer.rest_of_gone (Destroyer.ofQueue_gone outcome), place]
        rfl
  · have stays : ∀ ending : Ending, ∀ v, s.isTerminated v = true →
        (s.endWorker w ending).isTerminated v = true := by
      intro ending v gone
      rw [isTerminated_end, gone, ite_self]
    cases step_takes stepped with
    | _ => exact inTurn.of_aside rfl rfl rfl (stays _)
  · refine inTurn.of_aside aside.records (by rw [aside.destroyer, aside.executors])
      aside.requested ?_
    intro w gone
    rw [aside.terminated, gone]

theorem run_inTurn (run : (machine n F U).Run past s) : s.InTurn := by
  induction run with
  | none => exact start_inTurn
  | step before stepped ih =>
      obtain ⟨l, torn⟩ := run_torn before
      exact ih.step torn (run_enlisted before) stepped

/-- A worker that ends has been asked to, and had not ended. -/
theorem step_ended {a : PoolAction n F U} (stepped : s.step a = some t) :
    t.ended = s.ended ∨ ∃ w, s.cancelRequested w = true ∧ s.isTerminated w = false ∧
      t.ended = s.ended ++ [w] := by
  cases step_takes stepped with
  | cancelledWait requested place | cancelledTask requested place
  | cancelledCallback requested place =>
      exact Or.inr ⟨_, requested, by simp [isTerminated, place], rfl⟩
  | _ => exact Or.inl rfl

/-- **The workers end one at a time, the latest created first**: those that have ended
are at any time the last so many of the pool, in the reverse order of their creation. -/
theorem ended_latest_first (run : (machine n F U).Run past s) :
    s.ended <+: (List.finRange n).reverse := by
  induction run with
  | none => exact List.nil_prefix
  | @step past s a t before stepped ih =>
      rcases step_ended stepped with same | ⟨w, requested, alive, ended⟩
      · rw [same]
        exact ih
      obtain ⟨l, torn⟩ := run_torn before
      obtain ⟨left, whole⟩ := ih
      have sorted := finRange_descending n
      have notYet : w ∉ s.ended := fun member => by simp [(torn.ended w).1 member] at alive
      have among : w ∈ s.ended ++ left := by rw [whole]; simp
      have here : w ∈ left := (List.mem_append.1 among).resolve_left notYet
      cases left with
      | nil => cases here
      | cons x rest =>
          -- whoever is still there and before `w` on the list was created after it
          obtain rfl : w = x := by
            by_contra ne
            have inRest : w ∈ rest := (List.mem_cons.1 here).resolve_left ne
            rw [← whole, List.pairwise_append] at sorted
            have above : x > w := (List.pairwise_cons.1 sorted.2.1).1 w inRest
            have gone := (torn.ended x).2 ((run_inTurn before).later w requested x above)
            exact lt_irrefl x (sorted.2.2 x gone x List.mem_cons_self)
          rw [ended]
          exact ⟨rest, by rw [← whole]; simp⟩

/-- Worker 0 in a task, worker 1 asleep: worker 1 ends first. -/
theorem ended_latest_first_two :
    ∃ past s, (machine 2 String Unit).Run past s ∧ s.destroyer = .done ∧ s.ended = [1, 0] ∧
      s.ended <+: (List.finRange 2).reverse := by
  obtain ⟨past, s, run, seen⟩ := Machine.exists_run_of_exec (M := machine 2 String Unit)
    (p := fun r => decide (r.2.destroyer = .done) && decide (r.2.ended = [1, 0]))
    (executeCall 0 "multiply" (some 5) ++ [.pop 0 .pop, .pop 0 .return, .work 0 .call,
      .pop 1 .pop, .destroy .destroy, .destroy .next, .destroy .cancel, .cancelled 1 (.wait none),
      .destroy .join, .destroy .next, .destroy .cancel, .cancelled 0 .task, .destroy .join,
      .destroy .queueDestroy]) (by decide)
  simp only [Bool.and_eq_true, decide_eq_true_eq] at seen
  exact ⟨past, s, run, seen.1, seen.2, ended_latest_first run⟩

end Pool

end Cfutures
