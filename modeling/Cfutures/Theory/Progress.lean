/-
# Theory.Progress -- steps that cannot go on for ever

Steps of some kind end (`Ends`) if no sequence of them goes on for ever; where they have
ended none is enabled (`Ends.exists_stuck`).  They end

* if every step spends some of a potential, which then bounds how many can follow one
  another (`Spends.ends`, `Spends.length_add_le`);
* if every step counts down, or leaves the count as it is and spends a potential that may
  be another one after each count (`ends_of_phases`).

`sum_move` is for potentials that are sums over a finite family of parties: when one of
them moves, the sum changes by what that one has spent.
-/
import Cfutures.Theory.Machine
import Mathlib.Algebra.BigOperators.Group.Finset.Piecewise
import Mathlib.Data.Fintype.Card

namespace Cfutures.Theory

set_option autoImplicit false

universe u v

theorem sum_move {C : Type u} [Fintype C] [DecidableEq C] {f g : C → Nat} (c : C)
    (others : ∀ d, d ≠ c → g d = f d) : ∑ d, g d + f c = ∑ d, f d + g c := by
  have rest : ∑ d ∈ Finset.univ.erase c, g d = ∑ d ∈ Finset.univ.erase c, f d := by
    apply Finset.sum_congr rfl
    intro d member
    exact others d (Finset.ne_of_mem_erase member)
  rw [← Finset.add_sum_erase _ _ (Finset.mem_univ c),
    ← Finset.add_sum_erase _ f (Finset.mem_univ c), rest]
  omega

namespace Machine

variable {σ : Type u} {α : Type v} {M : Machine σ α} {I : σ → Prop} {P : α → Prop}
variable {potential : σ → Nat} {s t : σ} {more : List (σ × α)}

/-- No action of the kind is enabled. -/
def Stuck (M : Machine σ α) (P : α → Prop) (s : σ) : Prop := ∀ a, P a → M.step s a = none

/-- Every step of the kind spends some of the potential, and keeps the invariant. -/
def Spends (M : Machine σ α) (I : σ → Prop) (P : α → Prop) (potential : σ → Nat) : Prop :=
  ∀ s a t, I s → P a → M.step s a = some t → I t ∧ potential t < potential s

theorem Spends.length_add_le (spends : M.Spends I P potential) (steps : M.Steps s more t)
    (initial : I s) (kind : ∀ e ∈ more, P e.2) :
    I t ∧ more.length + potential t ≤ potential s := by
  induction steps with
  | none => exact ⟨initial, by simp⟩
  | @step past u a v before stepped ih =>
      obtain ⟨here, bound⟩ := ih fun e member => kind e (List.mem_append_left _ member)
      obtain ⟨next, less⟩ := spends u a v here (kind (u, a) (by simp)) stepped
      refine ⟨next, ?_⟩
      rw [List.length_append, List.length_singleton]
      omega

/-- No sequence of steps of the kind goes on for ever. -/
def Ends (M : Machine σ α) (P : α → Prop) (s : σ) : Prop :=
  Acc (fun t s => ∃ a, P a ∧ M.step s a = some t) s

/-- Going on as long as there is a step of the kind comes to an end. -/
theorem Ends.exists_stuck (ends : M.Ends P s) :
    ∃ more t, M.Steps s more t ∧ (∀ e ∈ more, P e.2) ∧ M.Stuck P t := by
  induction ends with
  | intro s _ ih =>
      by_cases stuck : M.Stuck P s
      · exact ⟨[], s, .none, by simp, stuck⟩
      · obtain ⟨a, kind, enabled⟩ : ∃ a, P a ∧ M.step s a ≠ none := by
          simpa [Stuck] using stuck
        obtain ⟨u, stepped⟩ := Option.ne_none_iff_exists'.1 enabled
        obtain ⟨more, t, steps, kinds, end_⟩ := ih u ⟨a, kind, stepped⟩
        refine ⟨_, t, (Steps.single stepped).append steps, ?_, end_⟩
        intro e member
        rcases List.mem_append.1 member with first | later
        · rw [List.mem_singleton.1 first]
          exact kind
        · exact kinds e later

/-- Each step counts down, or does not count up and spends what there is to spend until
the next that counts. -/
theorem ends_of_phases {μ : σ → Nat} (kept : ∀ s a t, I s → P a → M.step s a = some t → I t)
    (phases : ∀ s, I s → ∃ (J : σ → Prop) (potential : σ → Nat), J s ∧
      ∀ u a t, I u → J u → P a → M.step u a = some t →
        μ t < μ u ∨ (J t ∧ μ t ≤ μ u ∧ potential t < potential u))
    (initial : I s) : M.Ends P s := by
  induction counted : μ s using Nat.strong_induction_on generalizing s with
  | _ bound outer =>
      obtain ⟨J, potential, here, spends⟩ := phases s initial
      suffices inner : ∀ left u, I u → J u → μ u ≤ bound → potential u = left → M.Ends P u from
        inner _ s initial here counted.le rfl
      intro left
      induction left using Nat.strong_induction_on with
      | _ left inner =>
          rintro u reached inPhase within rfl
          refine Acc.intro u ?_
          rintro t ⟨a, kind, stepped⟩
          have reached' := kept u a t reached kind stepped
          rcases spends u a t reached inPhase kind stepped with less | ⟨inPhase', same, spent⟩
          · exact outer _ (less.trans_le within) reached' rfl
          · exact inner _ spent t reached' inPhase' (same.trans within) rfl

theorem Spends.ends (spends : M.Spends I P potential) (initial : I s) : M.Ends P s := by
  refine ends_of_phases (I := I) (μ := fun _ => 0)
    (fun s a t reached kind stepped => (spends s a t reached kind stepped).1) ?_ initial
  intro s reached
  refine ⟨I, potential, reached, ?_⟩
  intro u a t _ inPhase kind stepped
  exact Or.inr ⟨(spends u a t inPhase kind stepped).1, Nat.le_refl _,
    (spends u a t inPhase kind stepped).2⟩

end Machine

end Cfutures.Theory
