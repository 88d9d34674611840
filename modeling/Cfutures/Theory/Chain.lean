/-
# Theory.Chain -- linked chains in a store

`Chain next s p l`: starting at pointer `p` and following `next`, the records of
store `s` are those at the addresses `l`, in this order, and the last link is
null.  A chain depends only on the links it follows (`Chain.congr`), so writes
elsewhere, and writes to other fields, leave it alone.

`BackChain prev s p l`: along the addresses `l` every back link is the address
before it, and the first one's is `p`.  Unlinking the first record leaves a back
chain whose `p` is the address unlinked (`BackChain.tail`); appending a record
asks for its own back link only (`BackChain.concat_iff`).
-/
import Cfutures.Theory.Store
import Mathlib.Data.List.Basic

namespace Cfutures.Theory

set_option autoImplicit false

universe u v

variable {A : Type u} {β : Type v} {next : β → Option A}

def Chain (next : β → Option A) (s : Store A β) : Option A → List A → Prop
  | p, [] => p = none
  | p, a :: l => p = some a ∧ ∃ b, s a = some b ∧ Chain next s (next b) l

namespace Chain

variable {s s' : Store A β} {p : Option A} {l m : List A} {a : A}

@[simp] theorem none_iff : Chain next s none l ↔ l = [] := by
  cases l <;> simp [Chain]

theorem some_iff : Chain next s (some a) l ↔
    ∃ b rest, l = a :: rest ∧ s a = some b ∧ Chain next s (next b) rest := by
  cases l with
  | nil => simp [Chain]
  | cons c rest =>
      simp only [Chain, Option.some.injEq, List.cons.injEq]
      constructor
      · rintro ⟨rfl, b, present, tail⟩
        exact ⟨b, rest, ⟨rfl, rfl⟩, present, tail⟩
      · rintro ⟨b, rest', ⟨rfl, rfl⟩, present, tail⟩
        exact ⟨rfl, b, present, tail⟩

theorem head_eq (chain : Chain next s p l) : p = l.head? := by
  cases l with
  | nil => exact chain
  | cons _ _ => exact chain.1

theorem ne_nil_iff (chain : Chain next s p l) : l ≠ [] ↔ p ≠ none := by
  cases l with
  | nil => simp [show p = none from chain]
  | cons a l => simp [chain.1]

theorem unique (first : Chain next s p l) (second : Chain next s p m) : l = m := by
  induction l generalizing p m with
  | nil =>
      have isNull : p = none := first
      subst isNull
      exact (none_iff.1 second).symm
  | cons a l ih =>
      obtain ⟨rfl, b, present, tail⟩ := first
      obtain ⟨b', rest, rfl, present', tail'⟩ := some_iff.1 second
      rw [present] at present'
      cases present'
      rw [ih tail tail']

theorem live (chain : Chain next s p l) (member : a ∈ l) : ∃ b, s a = some b := by
  induction l generalizing p with
  | nil => simp at member
  | cons c l ih =>
      obtain ⟨-, b, present, tail⟩ := chain
      rcases List.mem_cons.1 member with rfl | inTail
      · exact ⟨b, present⟩
      · exact ih tail inTail

theorem ne_of_absent {c : A} (chain : Chain next s p l) (absent : s c = none) :
    ∀ a ∈ l, a ≠ c := by
  intro a member
  obtain ⟨b, present⟩ := chain.live member
  exact Store.ne_of_absent present absent

/-- A chain only reads the links of its own addresses. -/
theorem congr (same : ∀ a ∈ l, (s' a).map next = (s a).map next)
    (chain : Chain next s p l) : Chain next s' p l := by
  induction l generalizing p with
  | nil => exact chain
  | cons a l ih =>
      obtain ⟨rfl, b, present, tail⟩ := chain
      have link := same a (by simp)
      rw [present, Option.map_some, Option.map_eq_some_iff] at link
      obtain ⟨b', present', sameLink⟩ := link
      refine ⟨rfl, b', present', ?_⟩
      rw [sameLink]
      exact ih (fun c member => same c (List.mem_cons_of_mem a member)) tail

theorem congr_of_eq (same : ∀ a ∈ l, s' a = s a) (chain : Chain next s p l) :
    Chain next s' p l :=
  chain.congr fun a member => by rw [same a member]

/-- From any of its addresses on, a chain is a chain. -/
theorem suffix (chain : Chain next s p (m ++ a :: l)) : Chain next s (some a) (a :: l) := by
  induction m generalizing p with
  | nil =>
      have start := chain.1
      exact start ▸ chain
  | cons c m ih =>
      obtain ⟨-, b, -, tail⟩ := chain
      exact ih tail

/-- Following links from an address never comes back to it. -/
theorem nodup (chain : Chain next s p l) : l.Nodup := by
  induction l generalizing p with
  | nil => exact List.nodup_nil
  | cons a l ih =>
      have here := chain
      obtain ⟨rfl, b, present, tail⟩ := chain
      refine List.nodup_cons.2 ⟨?_, ih tail⟩
      intro again
      obtain ⟨pre, post, rfl⟩ := List.append_of_mem again
      have fromHere := unique here tail.suffix
      have lengths := congrArg List.length fromHere
      simp only [List.length_cons, List.length_append] at lengths
      omega

theorem last_link (chain : Chain next s p (m ++ [a])) : ∃ b, s a = some b ∧ next b = none := by
  obtain ⟨-, b, present, tail⟩ := chain.suffix
  exact ⟨b, present, tail⟩

/-- Appending a record: the last link is set to it and its own link is null. -/
theorem snoc {c : A} (chain : Chain next s p (m ++ [a]))
    (kept : ∀ d ∈ m, (s' d).map next = (s d).map next)
    (linked : (s' a).map next = some (some c)) (added : (s' c).map next = some none) :
    Chain next s' p (m ++ [a, c]) := by
  induction m generalizing p with
  | nil =>
      obtain ⟨rfl, -⟩ := chain
      obtain ⟨b, present, link⟩ := Option.map_eq_some_iff.1 linked
      obtain ⟨b', present', link'⟩ := Option.map_eq_some_iff.1 added
      exact ⟨rfl, b, present, link, b', present', link'⟩
  | cons d m ih =>
      obtain ⟨rfl, b, present, tail⟩ := chain
      have link := kept d (by simp)
      rw [present, Option.map_some, Option.map_eq_some_iff] at link
      obtain ⟨b', present', sameLink⟩ := link
      refine ⟨rfl, b', present', ?_⟩
      rw [sameLink]
      exact ih tail fun e member => kept e (List.mem_cons_of_mem d member)

end Chain

/-! ## Back links -/

def BackChain (prev : β → Option A) (s : Store A β) : Option A → List A → Prop
  | _, [] => True
  | p, a :: l => (s a).map prev = some p ∧ BackChain prev s (some a) l

namespace BackChain

variable {prev : β → Option A} {s s' : Store A β} {p : Option A} {l : List A} {a c : A}

/-- A back chain only reads the back links of its own addresses. -/
theorem congr (same : ∀ a ∈ l, (s' a).map prev = (s a).map prev)
    (back : BackChain prev s p l) : BackChain prev s' p l := by
  induction l generalizing p with
  | nil => trivial
  | cons a l ih =>
      obtain ⟨first, rest⟩ := back
      have link := same a List.mem_cons_self
      exact ⟨link.trans first, ih (fun c member => same c (List.mem_cons_of_mem a member)) rest⟩

theorem congr_of_eq (same : ∀ a ∈ l, s' a = s a) (back : BackChain prev s p l) :
    BackChain prev s' p l :=
  back.congr fun a member => by rw [same a member]

/-- What is left without the first record still has its back link to it. -/
theorem tail (back : BackChain prev s p (a :: l)) : BackChain prev s (some a) l := back.2

theorem concat_iff : BackChain prev s p (l ++ [c]) ↔
    BackChain prev s p l ∧ (s c).map prev = some (l.getLast?.or p) := by
  induction l generalizing p with
  | nil => simp [BackChain]
  | cons a l ih =>
      have last : (a :: l).getLast?.or p = l.getLast?.or (some a) := by
        rw [List.getLast?_cons]
        cases l.getLast? <;> rfl
      rw [last, List.cons_append]
      simp only [BackChain, ih, and_assoc]

/-- Links forward are answered by links back. -/
theorem of_next {next : β → Option A} {start : Option A} {b : β}
    (back : BackChain prev s p l) (chain : Chain next s start l) (member : a ∈ l)
    (present : s a = some b) (link : next b = some c) : (s c).map prev = some (some a) := by
  induction l generalizing p start with
  | nil => simp at member
  | cons d l ih =>
      obtain ⟨-, b', present', onward⟩ := chain
      rcases List.mem_cons.1 member with rfl | inTail
      · rw [present, Option.some.injEq] at present'
        subst present'
        rw [link] at onward
        obtain ⟨-, rest, rfl, -⟩ := Chain.some_iff.1 onward
        exact back.tail.1
      · exact ih back.tail onward inTail

/-- A back link leads to the address given at the start or to one of the chain's own. -/
theorem mem_of_back (back : BackChain prev s p l) (member : a ∈ l)
    (link : (s a).map prev = some (some c)) : p = some c ∨ c ∈ l := by
  induction l generalizing p with
  | nil => simp at member
  | cons d l ih =>
      rcases List.mem_cons.1 member with rfl | inTail
      · exact Or.inl (Option.some.inj (back.1.symm.trans link))
      · rcases ih back.tail inTail with first | later
        · exact Or.inr (by simp [Option.some.inj first])
        · exact Or.inr (List.mem_cons_of_mem d later)

end BackChain

end Cfutures.Theory
