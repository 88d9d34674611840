/-
# Theory.Machine -- partial machines and their recorded runs

A `Machine` is a start state and a step function that is undefined where an
action is not enabled.  Concurrency is in the actions: an action names the
thread that moves and every choice the environment makes, so a run is one
interleaving and a statement about every run is about all of them.

A run keeps its past: the list of its steps, each as the state it was taken in
together with its action.  A condition on steps ("no enqueue is taken while
...") is then a condition on the members of the past.

* `Steps.invariant`, `Run.invariant`: what every step keeps, every run keeps;
* `Run.invariant_where`: the same when only steps meeting a condition keep it;
* `Steps.project`, `Run.project`: a map of states under which every step is a step of another
  machine, or no step at all, maps runs to runs;
* `optStep`: the part of a machine in a step of a larger one;
* `exec`: runs on concrete actions, for closed examples.
-/
import Mathlib.Data.List.Basic

namespace Cfutures.Theory

set_option autoImplicit false

universe u v w x

structure Machine (σ : Type u) (α : Type v) where
  start : σ
  step : σ → α → Option σ

namespace Machine

variable {σ : Type u} {α : Type v} (M : Machine σ α)

/-- `M.Steps s past t`: from `s`, the steps recorded in `past` lead to `t`. -/
inductive Steps (s : σ) : List (σ × α) → σ → Prop
  | none : Steps s [] s
  | step {past : List (σ × α)} {t : σ} {a : α} {u : σ}
      (before : Steps s past t) (stepped : M.step t a = some u) : Steps s (past ++ [(t, a)]) u

/-- A run is recorded from the start state. -/
abbrev Run (past : List (σ × α)) (s : σ) : Prop := M.Steps M.start past s

/-- The states a run has been in, the present one included. -/
def visited (past : List (σ × α)) (s : σ) : List σ := past.map Prod.fst ++ [s]

theorem visited_concat (past : List (σ × α)) (e : σ × α) (s : σ) :
    visited (past ++ [e]) s = visited past e.1 ++ [s] := by
  simp [visited]

theorem visited_append (earlier later : List (σ × α)) (s : σ) :
    visited (earlier ++ later) s = earlier.map Prod.fst ++ visited later s := by
  simp [visited]

/-- A step in a record with one more is that last one, or was there before. -/
theorem concat_split {past before after : List (σ × α)} {d e : σ × α}
    (split : past ++ [d] = before ++ e :: after) :
    (before = past ∧ e = d ∧ after = []) ∨
      ∃ init, after = init ++ [d] ∧ past = before ++ e :: init := by
  rcases List.eq_nil_or_concat after with rfl | ⟨init, last, rfl⟩
  · obtain ⟨rfl, same⟩ := List.append_inj' split rfl
    exact Or.inl ⟨rfl, (List.singleton_inj.1 same).symm, rfl⟩
  · rw [List.concat_eq_append, ← List.cons_append, ← List.append_assoc] at split
    obtain ⟨earlier, same⟩ := List.append_inj' split rfl
    obtain rfl := List.singleton_inj.1 same
    exact Or.inr ⟨init, by simp, earlier⟩

variable {M}

namespace Steps

theorem single {s t : σ} {a : α} (stepped : M.step s a = some t) : M.Steps s [(s, a)] t :=
  Steps.none.step stepped

/-- Steps have been where they started. -/
theorem start_visited {s t : σ} {past : List (σ × α)} (steps : M.Steps s past t) :
    s ∈ visited past t := by
  induction steps with
  | none => simp [visited]
  | step _ _ ih =>
      rw [visited_append]
      rcases List.mem_append.1 ih with earlier | last
      · exact List.mem_append_left _ earlier
      · rw [List.mem_singleton.1 last]
        exact List.mem_append_right _ (by simp [visited])

theorem invariant {I : σ → Prop} (kept : ∀ s a t, I s → M.step s a = some t → I t)
    {s : σ} {past : List (σ × α)} {t : σ} (steps : M.Steps s past t) (initial : I s) : I t := by
  induction steps with
  | none => exact initial
  | step _ stepped ih => exact kept _ _ _ ih stepped

theorem append {s t u : σ} {past more : List (σ × α)} (first : M.Steps s past t)
    (second : M.Steps t more u) : M.Steps s (past ++ more) u := by
  induction second with
  | none => simpa using first
  | step _ stepped ih =>
      rw [← List.append_assoc]
      exact ih.step stepped

/-- The steps up to any recorded one, and the step itself. -/
theorem of_mem {s t : σ} {past : List (σ × α)} (steps : M.Steps s past t) {e : σ × α}
    (recorded : e ∈ past) :
    ∃ before after u, past = before ++ e :: after ∧ M.Steps s before e.1 ∧
      M.step e.1 e.2 = some u ∧ M.Steps u after t := by
  induction steps with
  | none => simp at recorded
  | @step past t a u before stepped ih =>
      rcases List.mem_append.1 recorded with earlier | last
      · obtain ⟨pre, post, v, split, upto, taken, rest⟩ := ih earlier
        exact ⟨pre, post ++ [(t, a)], v, by simp [split], upto, taken, rest.step stepped⟩
      · rw [List.mem_singleton] at last
        subst last
        exact ⟨past, [], u, rfl, before, stepped, .none⟩

/-- The steps up to a recorded one, where it stands in the record. -/
theorem upto {s t : σ} {before after : List (σ × α)} {e : σ × α}
    (steps : M.Steps s (before ++ e :: after) t) : M.Steps s before e.1 := by
  generalize split : before ++ e :: after = past at steps
  induction steps generalizing after with
  | none => simp at split
  | @step past u a v earlier stepped ih =>
      rcases concat_split split.symm with ⟨rfl, rfl, -⟩ | ⟨init, -, known⟩
      · exact earlier
      · exact ih known.symm

end Steps

namespace Run

theorem invariant {I : σ → Prop} (initial : I M.start)
    (kept : ∀ s a t, I s → M.step s a = some t → I t)
    {past : List (σ × α)} {s : σ} (run : M.Run past s) : I s :=
  Steps.invariant kept run initial

/-- An invariant that only the steps meeting `P` keep. -/
theorem invariant_where {I : σ → Prop} {P : σ → α → Prop} (initial : I M.start)
    (kept : ∀ s a t, I s → P s a → M.step s a = some t → I t)
    {past : List (σ × α)} {s : σ} (run : M.Run past s) (met : ∀ e ∈ past, P e.1 e.2) : I s := by
  induction run with
  | none => exact initial
  | @step past t a u _ stepped ih =>
      have earlier := ih fun e member => met e (List.mem_append_left _ member)
      have last : P t a := met (t, a) (List.mem_append_right _ (List.mem_singleton_self _))
      exact kept t a u earlier last stepped

/-- Every recorded step was taken in a state an initial part of the run reached. -/
theorem before {past : List (σ × α)} {s : σ} (run : M.Run past s) {e : σ × α}
    (recorded : e ∈ past) : ∃ earlier, M.Run earlier e.1 := by
  obtain ⟨pre, _, _, _, upto, _⟩ := Steps.of_mem run recorded
  exact ⟨pre, upto⟩

/-- What does not hold at the start and holds now came to hold at a recorded step. -/
theorem becomes {P : σ → Prop} (initial : ¬ P M.start) {past : List (σ × α)} {s : σ}
    (run : M.Run past s) (holds : P s) :
    ∃ e ∈ past, ∃ earlier t, M.Run earlier e.1 ∧ ¬ P e.1 ∧ M.step e.1 e.2 = some t ∧ P t := by
  induction run with
  | none => exact absurd holds initial
  | @step past s a t before stepped ih =>
      by_cases already : P s
      · obtain ⟨e, recorded, found⟩ := ih already
        exact ⟨e, List.mem_append_left _ recorded, found⟩
      · exact ⟨(s, a), by simp, past, t, before, already, stepped, holds⟩

/-- A state once visited is reached by an initial part of the run. -/
theorem of_visited {past : List (σ × α)} {s t : σ} (run : M.Run past s)
    (seen : t ∈ visited past s) : ∃ earlier later, past = earlier ++ later ∧ M.Run earlier t := by
  rcases List.mem_append.1 seen with earlier | last
  · obtain ⟨e, member, rfl⟩ := List.mem_map.1 earlier
    obtain ⟨pre, post, _, split, upto, _⟩ := Steps.of_mem run member
    exact ⟨pre, e :: post, split, upto⟩
  · rw [List.mem_singleton] at last
    subst last
    exact ⟨past, [], by simp, run⟩

end Run

section Project

variable {τ : Type w} {β : Type x} {N : Machine τ β} (π : σ → τ) (f : σ → α → Option β)

/-- The past seen through a projection: steps that are not actions of the other
machine leave no record. -/
def projectPast (past : List (σ × α)) : List (τ × β) :=
  past.filterMap fun e => (f e.1 e.2).map fun b => (π e.1, b)

/-- From `p` to `q` by the named action, or nothing has moved. -/
def Moves (N : Machine τ β) (p : τ) : Option β → τ → Prop
  | none, q => q = p
  | some b, q => N.step p b = some q

theorem moves_cases {p q : τ} {b : Option β} (moves : N.Moves p b q) :
    (b = none ∧ q = p) ∨ ∃ c, b = some c ∧ N.step p c = some q := by
  cases b with
  | none => exact Or.inl ⟨rfl, moves⟩
  | some c => exact Or.inr ⟨c, rfl, moves⟩

/-- The named action, or no step at all. -/
def optStep (N : Machine τ β) (p : τ) : Option β → Option τ
  | none => some p
  | some b => N.step p b

theorem moves_of_optStep {p q : τ} {b : Option β} (stepped : N.optStep p b = some q) :
    N.Moves p b q := by
  cases b with
  | none => exact (Option.some.inj stepped).symm
  | some b => exact stepped

/-- A step of `M` is, through `π`, the step of `N` that `f` names, or invisible. -/
def Projects (M : Machine σ α) (N : Machine τ β) (π : σ → τ) (f : σ → α → Option β) : Prop :=
  ∀ s a t, M.step s a = some t → N.Moves (π s) (f s a) (π t)

theorem Steps.project {π : σ → τ} {f : σ → α → Option β} (moves : Projects M N π f) {s t : σ}
    {past : List (σ × α)} (steps : M.Steps s past t) :
    N.Steps (π s) (projectPast π f past) (π t) := by
  induction steps with
  | none => exact .none
  | @step past t a u _ stepped ih =>
      have here := moves t a u stepped
      unfold projectPast at ih ⊢
      cases visible : f t a with
      | none =>
          rw [visible] at here
          have same : π u = π t := here
          simpa [List.filterMap_append, visible, same] using ih
      | some b =>
          rw [visible] at here
          simpa [List.filterMap_append, visible] using ih.step here

theorem Run.project {π : σ → τ} {f : σ → α → Option β} (initial : π M.start = N.start)
    (moves : Projects M N π f) {past : List (σ × α)} {s : σ} (run : M.Run past s) :
    N.Run (projectPast π f past) (π s) := by
  have steps := Steps.project moves run
  rwa [initial] at steps

/-- The states the other machine has been in are those seen through the projection. -/
theorem Steps.mem_visited_project {π : σ → τ} {f : σ → α → Option β} (moves : Projects M N π f)
    {s t : σ} {past : List (σ × α)} (steps : M.Steps s past t) {p : τ} :
    p ∈ visited (projectPast π f past) (π t) ↔ ∃ u ∈ visited past t, π u = p := by
  induction steps with
  | none => simp [visited, projectPast, eq_comm]
  | @step past t a u _ stepped ih =>
      have here := moves t a u stepped
      have last : t ∈ visited past t := List.mem_append_right _ (List.mem_singleton_self t)
      cases named : f t a with
      | none =>
          rw [named] at here
          have same : π u = π t := here
          have seen : projectPast π f (past ++ [(t, a)]) = projectPast π f past := by
            simp [projectPast, named]
          rw [seen, same, ih, visited_concat]
          constructor
          · rintro ⟨v, member, rfl⟩
            exact ⟨v, List.mem_append_left _ member, rfl⟩
          · rintro ⟨v, member, rfl⟩
            rcases List.mem_append.1 member with earlier | new
            · exact ⟨v, earlier, rfl⟩
            · exact ⟨t, last, by rw [List.mem_singleton.1 new, same]⟩
      | some b =>
          have seen : projectPast π f (past ++ [(t, a)]) = projectPast π f past ++ [(π t, b)] := by
            simp [projectPast, named]
          rw [seen, visited_concat, visited_concat, List.mem_append, ih]
          simp [or_and_right, exists_or, eq_comm]

/-- Counting in the projected past is counting the steps that project. -/
theorem countP_projectPast (p : τ → β → Bool) (past : List (σ × α)) :
    ((projectPast π f past).countP fun e => p e.1 e.2) =
      past.countP fun e => (f e.1 e.2).any (p (π e.1)) := by
  rw [projectPast, List.countP_filterMap]
  refine List.countP_congr ?_
  intro e _
  cases f e.1 e.2 <;> simp

/-- A step in the projected past is a step of the past, with the past before it. -/
theorem projectPast_split {past : List (σ × α)} {before after : List (τ × β)} {e : τ × β}
    (split : projectPast π f past = before ++ e :: after) :
    ∃ earlier d later, past = earlier ++ d :: later ∧ projectPast π f earlier = before ∧
      f d.1 d.2 = some e.2 ∧ π d.1 = e.1 := by
  obtain ⟨earlier, rest, rfl, first, second⟩ := List.filterMap_eq_append_iff.1 split
  obtain ⟨unseen, d, later, rfl, none_, seen, -⟩ := List.filterMap_eq_cons_iff.1 second
  obtain ⟨b, named, rfl⟩ := Option.map_eq_some_iff.1 seen
  refine ⟨earlier ++ unseen, d, later, by simp, ?_, named, rfl⟩
  rw [projectPast, List.filterMap_append, first, List.filterMap_eq_nil_iff.2 none_,
    List.append_nil]

theorem mem_projectPast {past : List (σ × α)} {e : τ × β} :
    e ∈ projectPast π f past ↔ ∃ d ∈ past, f d.1 d.2 = some e.2 ∧ π d.1 = e.1 := by
  simp only [projectPast, List.mem_filterMap, Option.map_eq_some_iff]
  constructor
  · rintro ⟨d, member, b, named, rfl⟩
    exact ⟨d, member, named, rfl⟩
  · rintro ⟨d, member, named, same⟩
    exact ⟨d, member, e.2, named, by rw [same]⟩

end Project

/-! ## Running concrete actions -/

variable (M)

/-- Take the listed actions one after another, recording the past. -/
def execFrom (past : List (σ × α)) (s : σ) : List α → Option (List (σ × α) × σ)
  | [] => some (past, s)
  | a :: as => (M.step s a).bind fun t => execFrom (past ++ [(s, a)]) t as

def exec (actions : List α) : Option (List (σ × α) × σ) := M.execFrom [] M.start actions

variable {M}

theorem run_of_execFrom {past : List (σ × α)} {s : σ} (run : M.Run past s) {actions : List α}
    {r : List (σ × α) × σ} (done : M.execFrom past s actions = some r) : M.Run r.1 r.2 := by
  induction actions generalizing past s with
  | nil =>
      simp only [execFrom, Option.some.injEq] at done
      subst done
      exact run
  | cons a as ih =>
      simp only [execFrom, Option.bind_eq_some_iff] at done
      obtain ⟨t, stepped, rest⟩ := done
      exact ih (run.step stepped) rest

/-- A decidable property seen at the end of an executed action list holds of a run. -/
theorem exists_run_of_exec {p : List (σ × α) × σ → Bool} (actions : List α)
    (seen : (M.exec actions).any p = true) :
    ∃ past s, M.Run past s ∧ p (past, s) = true := by
  unfold exec at seen
  cases done : M.execFrom [] M.start actions with
  | none => simp [done] at seen
  | some r =>
      rw [done] at seen
      exact ⟨r.1, r.2, run_of_execFrom .none done, by simpa using seen⟩

end Machine

end Cfutures.Theory
