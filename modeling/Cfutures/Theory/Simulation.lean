/-
# Theory.Simulation -- two machines seen through the actions of one

`observed f past`: the actions of another machine that the steps of a past are, where
`f` names them.  `Simulates R` says that every step of `M` is, for related states, the
step of `N` that `f` names or nothing; `Realizes R` that every step of `N` can be
played by steps of `M` that are seen as that one step.

Machines are deterministic, so the run of `N` is the one `exec` computes from what is
observed (`exec_iff`).

* `Simulates.run`: what a run of `M` is seen as, `N` executes;
* `Realizes.run`: what `N` executes, some run of `M` is seen as;
* `Simulates.of_projects`: a projection followed by a simulation is one.
-/
import Cfutures.Theory.Machine
import Mathlib.Data.List.Induction

namespace Cfutures.Theory.Machine

set_option autoImplicit false

universe u v w x y z

variable {σ : Type u} {α : Type v} {τ : Type w} {β : Type x} {υ : Type y} {γ : Type z}

def observed (f : σ → α → Option β) (past : List (σ × α)) : List β :=
  past.filterMap fun e => f e.1 e.2

section Observed

variable {f : σ → α → Option β} {past more : List (σ × α)} {s : σ} {a : α} {b : β}

@[simp] theorem observed_nil : observed f [] = [] := rfl

theorem observed_append : observed f (past ++ more) = observed f past ++ observed f more :=
  List.filterMap_append

theorem observed_concat (s : σ) (a : α) :
    observed f (past ++ [(s, a)]) = observed f past ++ (f s a).toList := by
  rw [observed_append]
  cases named : f s a <;> simp [observed, named]

end Observed

/-! ## Executing what was recorded -/

section Exec

variable {M : Machine σ α} {past more : List (σ × α)} {s t : σ} {actions rest : List α}

theorem execFrom_append (M : Machine σ α) (past : List (σ × α)) (s : σ) (actions rest : List α) :
    M.execFrom past s (actions ++ rest) =
      (M.execFrom past s actions).bind fun r => M.execFrom r.1 r.2 rest := by
  induction actions generalizing past s with
  | nil => rfl
  | cons a actions ih =>
      simp only [List.cons_append, execFrom]
      cases M.step s a with
      | none => rfl
      | some t => exact ih _ t

theorem exec_concat (M : Machine σ α) (actions : List α) (a : α) :
    M.exec (actions ++ [a]) =
      (M.exec actions).bind fun r => (M.step r.2 a).map fun t => (r.1 ++ [(r.2, a)], t) := by
  rw [exec, execFrom_append]
  apply congrArg (Option.bind _)
  funext r
  simp only [execFrom]
  cases M.step r.2 a <;> rfl

/-- A run is what executing its actions computes. -/
theorem exec_iff : M.exec actions = some (past, s) ↔
    M.Run past s ∧ past.map Prod.snd = actions := by
  constructor
  · intro done
    refine ⟨run_of_execFrom .none done, ?_⟩
    induction actions using List.reverseRecOn generalizing past s with
    | nil =>
        cases done
        rfl
    | append_singleton actions a ih =>
        rw [exec_concat] at done
        obtain ⟨⟨past', s'⟩, before, done⟩ := Option.bind_eq_some_iff.1 done
        obtain ⟨t, -, same⟩ := Option.map_eq_some_iff.1 done
        cases same
        simp [ih before]
  · rintro ⟨run, rfl⟩
    induction run with
    | none => rfl
    | @step past t a u _ stepped ih =>
        rw [List.map_append, List.map_singleton, exec_concat, ih]
        simp [stepped]

theorem steps_of_execFrom {r : List (σ × α) × σ} (done : M.execFrom past s actions = some r) :
    ∃ more, M.Steps s more r.2 ∧ more.map Prod.snd = actions := by
  induction actions generalizing past s with
  | nil =>
      cases done
      exact ⟨[], .none, rfl⟩
  | cons a actions ih =>
      simp only [execFrom, Option.bind_eq_some_iff] at done
      obtain ⟨t, stepped, rest⟩ := done
      obtain ⟨more, steps, same⟩ := ih rest
      exact ⟨(s, a) :: more, (Steps.single stepped).append steps, by simp [same]⟩

/-- Two action lists executed one after the other: a run, and steps that go on from it. -/
theorem exists_steps_of_exec {p : List (σ × α) × σ → σ → Bool} (actions rest : List α)
    (seen : ((M.exec actions).bind fun r =>
      (M.execFrom [] r.2 rest).map fun q => p r q.2) = some true) :
    ∃ past s more t, M.Run past s ∧ M.Steps s more t ∧ more.map Prod.snd = rest ∧
      p (past, s) t = true := by
  obtain ⟨r, first, onward⟩ := Option.bind_eq_some_iff.1 seen
  obtain ⟨q, second, seen⟩ := Option.map_eq_some_iff.1 onward
  obtain ⟨more, steps, same⟩ := steps_of_execFrom second
  exact ⟨r.1, r.2, more, q.2, run_of_execFrom .none first, steps, same, seen⟩

end Exec

/-! ## Simulation -/

variable {M : Machine σ α} {N : Machine τ β} {K : Machine υ γ}
variable {f : σ → α → Option β} {R : σ → τ → Prop}

/-- Related states stay related, `N` moving as `f` names the step of `M`. -/
structure Simulates (M : Machine σ α) (N : Machine τ β) (f : σ → α → Option β)
    (R : σ → τ → Prop) : Prop where
  start : R M.start N.start
  step : ∀ s p a t, R s p → M.step s a = some t → ∃ q, N.Moves p (f s a) q ∧ R t q

/-- A step of `N` can be played by `M` so that nothing else is seen. -/
structure Realizes (M : Machine σ α) (N : Machine τ β) (f : σ → α → Option β)
    (R : σ → τ → Prop) : Prop where
  start : R M.start N.start
  step : ∀ s p b q, R s p → N.step p b = some q →
    ∃ more t, M.Steps s more t ∧ observed f more = [b] ∧ R t q

theorem Simulates.steps (simulates : Simulates M N f R) {s t : σ} {past : List (σ × α)} {p : τ}
    (related : R s p) (steps : M.Steps s past t) :
    ∃ past' q, N.execFrom [] p (observed f past) = some (past', q) ∧ R t q := by
  induction steps with
  | none => exact ⟨[], p, rfl, related⟩
  | @step past t a u _ stepped ih =>
      obtain ⟨past', q, done, related'⟩ := ih
      obtain ⟨r, moves, related''⟩ := simulates.step t q a u related' stepped
      rw [observed_concat]
      rcases moves_cases moves with ⟨unseen, rfl⟩ | ⟨b, seen, taken⟩
      · rw [unseen]
        exact ⟨past', r, by simpa using done, related''⟩
      · refine ⟨past' ++ [(q, b)], r, ?_, related''⟩
        rw [seen, Option.toList_some, execFrom_append, done]
        simp [execFrom, taken]

/-- From `s`, steps that are seen as `bs` lead to `t`. -/
def Plays (M : Machine σ α) (f : σ → α → Option β) (s : σ) (bs : List β) (t : σ) : Prop :=
  ∃ more, M.Steps s more t ∧ observed f more = bs

namespace Plays

variable {s t u : σ} {a : α} {bs cs : List β}

theorem refl (s : σ) : Plays M f s [] s := ⟨[], .none, rfl⟩

theorem unseen (stepped : M.step s a = some t) (named : f s a = none) : Plays M f s [] t :=
  ⟨_, .single stepped, by simp [observed, named]⟩

theorem seen {b : β} (stepped : M.step s a = some t) (named : f s a = some b) :
    Plays M f s [b] t :=
  ⟨_, .single stepped, by simp [observed, named]⟩

theorem trans (first : Plays M f s bs t) (second : Plays M f t cs u) :
    Plays M f s (bs ++ cs) u := by
  obtain ⟨more, steps, rfl⟩ := first
  obtain ⟨more', steps', rfl⟩ := second
  exact ⟨more ++ more', steps.append steps', observed_append⟩

/-- What is played, the simulating machine takes. -/
theorem simulated (plays : Plays M f s bs t) (simulates : Simulates M N f R) {p : τ}
    (related : R s p) : ∃ past' q, N.execFrom [] p bs = some (past', q) ∧ R t q := by
  obtain ⟨more, steps, rfl⟩ := plays
  exact simulates.steps related steps

end Plays

theorem Simulates.run (simulates : Simulates M N f R) {past : List (σ × α)} {s : σ}
    (run : M.Run past s) : ∃ past' p, N.exec (observed f past) = some (past', p) ∧ R s p :=
  simulates.steps simulates.start run

theorem Realizes.run (realizes : Realizes M N f R) {bs : List β} {past' : List (τ × β)} {p : τ}
    (done : N.exec bs = some (past', p)) :
    ∃ past s, M.Run past s ∧ observed f past = bs ∧ R s p := by
  obtain ⟨run, rfl⟩ := exec_iff.1 done
  clear done
  induction run with
  | none => exact ⟨[], M.start, .none, rfl, realizes.start⟩
  | @step past' p b q _ stepped ih =>
      obtain ⟨past, s, run, seen, related⟩ := ih
      obtain ⟨more, t, steps, one, related'⟩ := realizes.step s p b q related stepped
      exact ⟨past ++ more, t, run.append steps, by simp [observed_append, seen, one], related'⟩

theorem Simulates.of_projects {π : σ → τ} {g : τ → β → Option γ} {S : τ → υ → Prop}
    (initial : π M.start = N.start) (projects : Projects M N π f) (simulates : Simulates N K g S) :
    Simulates M K (fun s a => (f s a).bind (g (π s))) (fun s => S (π s)) where
  start := by
    rw [initial]
    exact simulates.start
  step := by
    intro s p a t related stepped
    rcases moves_cases (projects s a t stepped) with ⟨unseen, same⟩ | ⟨b, seen, taken⟩
    · refine ⟨p, ?_, same ▸ related⟩
      rw [unseen]
      rfl
    · rw [seen]
      exact simulates.step (π s) p b (π t) related taken

end Cfutures.Theory.Machine
