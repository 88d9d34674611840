/-
# Theory.Tally -- counting the members of a finite family

`tally p f`: how many indices `c` have `p (f c)`.  Moving one member changes the
count by what it was and what it becomes (`tally_update`), stated as an equation
of sums so that linear arithmetic can use it.
-/
import Mathlib.Algebra.BigOperators.Group.Finset.Piecewise
import Mathlib.Data.Fintype.Card

namespace Cfutures.Theory

set_option autoImplicit false

universe u v

variable {C : Type u} {β : Type v} [Fintype C]

def tally (p : β → Bool) (f : C → β) : Nat := (Finset.univ.filter fun c => p (f c) = true).card

theorem tally_eq_sum (p : β → Bool) (f : C → β) : tally p f = ∑ c, (p (f c)).toNat := by
  rw [tally, Finset.card_filter]
  apply Finset.sum_congr rfl
  intro c _
  cases p (f c) <;> rfl

theorem tally_pos_iff {p : β → Bool} {f : C → β} : 0 < tally p f ↔ ∃ c, p (f c) = true := by
  rw [tally, Finset.card_pos]
  simp [Finset.Nonempty]

theorem tally_le_of_imp {p q : β → Bool} {f : C → β} (imp : ∀ b, p b = true → q b = true) :
    tally p f ≤ tally q f :=
  Finset.card_le_card fun c member => by
    simp only [Finset.mem_filter] at member ⊢
    exact ⟨member.1, imp _ member.2⟩

theorem tally_update [DecidableEq C] (p : β → Bool) (f : C → β) (c : C) (b : β) :
    tally p (Function.update f c b) + (p (f c)).toNat = tally p f + (p b).toNat := by
  rw [tally_eq_sum, tally_eq_sum, ← Finset.add_sum_erase _ _ (Finset.mem_univ c),
    ← Finset.add_sum_erase _ (fun d => (p (f d)).toNat) (Finset.mem_univ c)]
  have others : ∑ d ∈ Finset.univ.erase c, (p (Function.update f c b d)).toNat =
      ∑ d ∈ Finset.univ.erase c, (p (f d)).toNat := by
    apply Finset.sum_congr rfl
    intro d member
    rw [Function.update_of_ne (Finset.ne_of_mem_erase member)]
  rw [others, Function.update_self]
  omega

end Cfutures.Theory
