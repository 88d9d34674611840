/-
# Theory.Program -- sequential programs that read, write and fail

A program is an `EStateM`: from a state it comes to a value and a state, or to an
error and the state it failed in.  `Leads m s a t` says that `m` succeeds from `s`
with `a` in `t`; `Fails m s e t` that it stops with error `e` in `t`; `Ends` is one or
the other.  The rules follow the shape of a `do` block: the first part leads, or the
first part fails.
-/
import Mathlib.Init

namespace Cfutures.Theory

set_option autoImplicit false

universe u

variable {ε σ α β : Type u} {m : EStateM ε σ α} {f : α → EStateM ε σ β}
variable {s t u : σ} {a : α} {b : β} {e : ε}

def Leads (m : EStateM ε σ α) (s : σ) (a : α) (t : σ) : Prop := m.run s = .ok a t

def Fails (m : EStateM ε σ α) (s : σ) (e : ε) (t : σ) : Prop := m.run s = .error e t

theorem run_of_leads (first : Leads m s a t) : (m >>= f).run s = (f a).run t := by
  have done : m s = .ok a t := first
  simp [EStateM.run, bind, EStateM.bind, done]

theorem Leads.bind (first : Leads m s a t) (rest : Leads (f a) t b u) : Leads (m >>= f) s b u :=
  (run_of_leads first).trans rest

theorem Leads.bind_fails (first : Leads m s a t) (rest : Fails (f a) t e u) :
    Fails (m >>= f) s e u :=
  (run_of_leads first).trans rest

theorem Fails.bind (first : Fails m s e t) : Fails (m >>= f) s e t := by
  have done : m s = .error e t := first
  simp [Fails, EStateM.run, Bind.bind, EStateM.bind, done]

theorem pure_leads (a : α) (s : σ) : Leads (pure a : EStateM ε σ α) s a s := rfl

theorem get_leads (s : σ) : Leads (get : EStateM ε σ σ) s s s := rfl

theorem modify_leads (change : σ → σ) (s : σ) :
    Leads (modify change : EStateM ε σ PUnit) s ⟨⟩ (change s) := rfl

/-- What succeeds as a whole succeeded in its parts. -/
theorem Leads.parts (whole : Leads (m >>= f) s b u) : ∃ a t, Leads m s a t ∧ Leads (f a) t b u := by
  cases first : m.run s with
  | ok a t =>
      have leads : Leads m s a t := first
      exact ⟨a, t, leads, (run_of_leads leads).symm.trans whole⟩
  | error e t =>
      have fails : Fails m s e t := first
      have both : (EStateM.Result.ok b u : EStateM.Result ε σ β) = .error e t :=
        whole.symm.trans fails.bind
      cases both

/-- Wherever the program succeeds, it has gone from a state to a related one. -/
def Respects (m : EStateM ε σ α) (R : σ → σ → Prop) : Prop := ∀ s a t, Leads m s a t → R s t

theorem Respects.bind {R : σ → σ → Prop} (trans : ∀ s t u, R s t → R t u → R s u)
    (first : Respects m R) (rest : ∀ a, Respects (f a) R) : Respects (m >>= f) R := by
  intro s b u whole
  obtain ⟨a, t, leads, onward⟩ := whole.parts
  exact trans s t u (first s a t leads) (rest a t b u onward)

/-- A program that succeeds without changing the state respects what relates a state
to itself. -/
theorem respects_of_same {R : σ → σ → Prop} (refl : ∀ s, R s s)
    (same : ∀ s a t, Leads m s a t → t = s) : Respects m R := by
  intro s a t leads
  rw [same s a t leads]
  exact refl s

/-- A program comes to one end. -/
theorem Leads.not_fails (first : Leads m s a t) : ¬ Fails m s e u := by
  intro fails
  have same : (EStateM.Result.ok a t : EStateM.Result ε σ α) = .error e u := first.symm.trans fails
  cases same

/-- The program ends in `t`, with the error if there is one. -/
def Ends (m : EStateM ε σ PUnit) (s : σ) (end_ : Option ε) (t : σ) : Prop :=
  match end_ with
  | none => Leads m s ⟨⟩ t
  | some e => Fails m s e t

theorem Ends.after {m : EStateM ε σ α} {f : α → EStateM ε σ PUnit} {end_ : Option ε}
    (first : Leads m s a t) (rest : Ends (f a) t end_ u) : Ends (m >>= f) s end_ u := by
  cases end_ with
  | none => exact first.bind rest
  | some e => exact first.bind_fails rest

/-- A program that ends fails only as it does, in the state it does. -/
theorem Ends.fails_iff {m : EStateM ε σ PUnit} {end_ : Option ε} (ends : Ends m s end_ t) :
    Fails m s e u ↔ end_ = some e ∧ u = t := by
  cases end_ with
  | none =>
      have leads : Leads m s ⟨⟩ t := ends
      simp only [reduceCtorEq, false_and, iff_false]
      exact leads.not_fails
  | some e' =>
      have fails : Fails m s e' t := ends
      constructor
      · intro again
        have same : (EStateM.Result.error e u : EStateM.Result ε σ PUnit) = .error e' t :=
          again.symm.trans fails
        cases same
        exact ⟨rfl, rfl⟩
      · rintro ⟨same, rfl⟩
        cases same
        exact fails

end Cfutures.Theory
