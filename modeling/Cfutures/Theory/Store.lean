/-
# Theory.Store -- a partial store of records

Addresses to records, `none` where nothing is allocated.  `put` allocates or
overwrites, `free` removes, and `modify` writes through a pointer: it is
undefined at an absent address, where a program would touch released memory.
A store with `HasRoom` has an address for the next record.
-/
import Mathlib.Logic.Function.Basic

namespace Cfutures.Theory

set_option autoImplicit false

universe u v

abbrev Store (A : Type u) (β : Type v) := A → Option β

namespace Store

variable {A : Type u} {β : Type v}

def empty : Store A β := fun _ => none

@[simp] theorem empty_apply (a : A) : (empty : Store A β) a = none := rfl

theorem ne_of_absent {s : Store A β} {a c : A} {b : β} (present : s a = some b)
    (absent : s c = none) : a ≠ c := by
  rintro rfl
  rw [absent] at present
  cases present

variable [DecidableEq A]

def put (s : Store A β) (a : A) (b : β) : Store A β := Function.update s a (some b)

def free (s : Store A β) (a : A) : Store A β := Function.update s a none

/-- Write through a pointer; undefined at an absent address. -/
def modify (s : Store A β) (a : A) (f : β → β) : Option (Store A β) :=
  (s a).map fun b => s.put a (f b)

@[simp] theorem put_same (s : Store A β) (a : A) (b : β) : s.put a b a = some b := by
  simp [put]

theorem put_ne (s : Store A β) {a c : A} (b : β) (ne : c ≠ a) : s.put a b c = s c := by
  simp [put, ne]

theorem put_apply (s : Store A β) (a c : A) (b : β) :
    s.put a b c = if c = a then some b else s c := by
  simp [put, Function.update_apply]

@[simp] theorem free_same (s : Store A β) (a : A) : s.free a a = none := by
  simp [free]

theorem free_ne (s : Store A β) {a c : A} (ne : c ≠ a) : s.free a c = s c := by
  simp [free, ne]

theorem free_apply (s : Store A β) (a c : A) :
    s.free a c = if c = a then none else s c := by
  simp [free, Function.update_apply]

/-! ## Room for one more -/

/-- From some address on the store is empty. -/
def HasRoom (s : Store Nat β) : Prop := ∃ bound, ∀ a, bound ≤ a → s a = none

namespace HasRoom

variable {s t : Store Nat β}

theorem exists_absent (room : s.HasRoom) : ∃ a, s a = none := by
  obtain ⟨bound, absent⟩ := room
  exact ⟨bound, absent bound (Nat.le_refl _)⟩

theorem empty_hasRoom : (empty : Store Nat β).HasRoom := ⟨0, fun _ _ => rfl⟩

/-- One address more may be in use. -/
theorem of_one (room : s.HasRoom) (c : Nat) (kept : ∀ a, a ≠ c → s a = none → t a = none) :
    t.HasRoom := by
  obtain ⟨bound, absent⟩ := room
  refine ⟨max bound (c + 1), ?_⟩
  intro a beyond
  have ne : a ≠ c := by omega
  have old : bound ≤ a := by omega
  exact kept a ne (absent a old)

theorem of_fewer (room : s.HasRoom) (kept : ∀ a, s a = none → t a = none) : t.HasRoom :=
  room.of_one 0 fun a _ => kept a

end HasRoom

end Store

end Cfutures.Theory
