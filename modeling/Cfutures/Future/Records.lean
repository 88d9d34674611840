/-
# Future.Records -- the callback records of a future, from `future_new` to its end

`callback_destroy` is there to release a whole list, and would release each record of it
once (`callbackDestroy_releases`), but nothing calls it: not the walk, and not
`future_destroy`.  So what a life cycle has released is nothing at all, and it accounts
for its records exactly when it created none.
-/
import Cfutures.Future.Calls
import Cfutures.Theory.Chain

namespace Cfutures

open Cfutures.Theory

set_option autoImplicit false

/-- One call on a future that still exists. -/
inductive FutureCall (φ : Type) where
  | addCallback (callbackFn : Option φ) (args : Ptr)
  | settle (outcome : Outcome)

def FutureCall.isAddCallback {φ : Type} : FutureCall φ → Bool
  | .addCallback .. => true
  | .settle _ => false

namespace CalledFuture

variable {φ : Type} {s t : CalledFuture φ}

def freeCallback (self : Addr) : Program φ Unit := fun s =>
  match s.records self with
  | some _ => .ok () { s with records := s.records.free self, released := s.released ++ [self] }
  | none => .error .faulted s

/-- `callback_destroy`: `while (self) { next = self->next; free (self); self = next; }`,
at most `turns` turns of it. -/
def callbackDestroy : Nat → Ptr → Program φ Unit
  | _, none => pure ()
  | 0, some _ => throw .unfinished
  | turns + 1, some self => do
      let record ← readCallback self
      freeCallback self
      callbackDestroy turns record.next

/-- What a caller of `callback_destroy` may rely on: the list is gone, each record released
once. -/
theorem callbackDestroy_releases {p : Ptr} {l : List Addr} {turns : Nat}
    (chain : Chain Callback.next s.records p l) (enough : l.length ≤ turns) :
    ∃ t, Leads (callbackDestroy turns p) s () t ∧ t.released = s.released ++ l ∧
      ∀ a, t.records a = if a ∈ l then none else s.records a := by
  induction l generalizing s p turns with
  | nil =>
      obtain rfl : p = none := chain
      refine ⟨s, ?_, by simp, by simp⟩
      cases turns <;> exact pure_leads _ _
  | cons a l ih =>
      have notLater : a ∉ l := (List.nodup_cons.1 chain.nodup).1
      obtain ⟨rfl, record, present, onward⟩ := chain
      rw [List.length_cons] at enough
      obtain ⟨turns, rfl⟩ : ∃ n, turns = n + 1 := Nat.exists_eq_add_one.2 (by omega)
      have frees : Leads (freeCallback a) s ()
          { s with records := s.records.free a, released := s.released ++ [a] } := by
        simp [Leads, freeCallback, EStateM.run, present]
      have onward' : Chain Callback.next (s.records.free a) record.next l :=
        onward.congr_of_eq fun b member => Store.free_ne _ fun same => notLater (same ▸ member)
      obtain ⟨t, leads, released, records⟩ :=
        ih (s := { s with records := s.records.free a, released := s.released ++ [a] })
          onward' (show l.length ≤ turns by omega)
      refine ⟨t, (readCallback_leads present).bind (frees.bind leads), by simp [released],
        ?_⟩
      intro b
      simp only [records, Store.free_apply]
      by_cases same : b = a <;> simp [same]

/-! ## A life cycle -/

/-- `future_destroy`: the mutex, the condition variable, and the future itself. -/
def futureDestroy : Program φ Unit := modify fun s => { s with present := false }

section LifeCycle

variable (behave : Nat → φ → Ptr → Script φ) (turns : Nat)

def perform : FutureCall φ → Program φ Unit
  | .addCallback callbackFn args => futureAddCallback callbackFn args
  | .settle o => settlePromise behave turns o

/-- The calls, one after another, then `future_destroy`. -/
def lifeCycle : List (FutureCall φ) → Program φ Unit
  | [] => futureDestroy
  | c :: rest => do
      perform behave turns c
      lifeCycle rest

/-- No record released, and none forgotten to have been created. -/
structure Hoards (s t : CalledFuture φ) : Prop where
  released : t.released = s.released
  allocated : s.allocated ≤ t.allocated

theorem Hoards.refl (s : CalledFuture φ) : Hoards s s := ⟨rfl, Nat.le_refl _⟩

theorem Hoards.trans (s t u : CalledFuture φ) (first : Hoards s t) (second : Hoards t u) :
    Hoards s u :=
  ⟨second.released.trans first.released, Nat.le_trans first.allocated second.allocated⟩

theorem modify_hoards {change : CalledFuture φ → CalledFuture φ}
    (hoards : ∀ s, Hoards s (change s)) :
    Respects (modify change : Program φ Unit) Hoards := by
  intro s a t leads
  cases leads
  exact hoards s

theorem lockMutex_hoards : Respects (lockMutex : Program φ Unit) Hoards := by
  intro s a t leads
  simp only [Leads, EStateM.run, lockMutex] at leads
  split at leads <;> cases leads
  exact ⟨rfl, Nat.le_refl _⟩

theorem unlockMutex_hoards : Respects (unlockMutex : Program φ Unit) Hoards :=
  modify_hoards fun _ => ⟨rfl, Nat.le_refl _⟩

theorem get_hoards : Respects (get : Program φ (CalledFuture φ)) Hoards :=
  respects_of_same Hoards.refl fun s a t leads => by cases leads; rfl

theorem assertThat_hoards (assertion : Assertion) (holds : Bool) :
    Respects (assertThat assertion holds : Program φ Unit) Hoards :=
  respects_of_same Hoards.refl fun s a t leads => by
    simp only [Leads, EStateM.run, assertThat] at leads
    split at leads <;> cases leads
    rfl

theorem sleepUnlessResolved_hoards : Respects (sleepUnlessResolved : Program φ Unit) Hoards :=
  respects_of_same Hoards.refl fun s a t leads => by
    simp only [Leads, EStateM.run, sleepUnlessResolved] at leads
    split at leads <;> cases leads
    rfl

theorem readCallback_hoards (self : Addr) : Respects (readCallback self : Program φ _) Hoards :=
  respects_of_same Hoards.refl fun s a t leads => by
    simp only [Leads, EStateM.run, readCallback] at leads
    split at leads <;> cases leads
    rfl

theorem throw_hoards {α : Type} (e : Stuck) : Respects (throw e : Program φ α) Hoards := by
  intro s a t leads
  cases leads

theorem pure_hoards {α : Type} (a : α) : Respects (pure a : Program φ α) Hoards :=
  respects_of_same Hoards.refl fun s a t leads => by cases leads; rfl

theorem futureWait_hoards : Respects (futureWait : Program φ Unit) Hoards :=
  lockMutex_hoards.bind Hoards.trans fun _ =>
    sleepUnlessResolved_hoards.bind Hoards.trans fun _ => unlockMutex_hoards

theorem futureGet_hoards : Respects (futureGet : Program φ Ptr) Hoards :=
  futureWait_hoards.bind Hoards.trans fun _ => get_hoards.bind Hoards.trans fun _ =>
    (assertThat_hoards _ _).bind Hoards.trans fun _ =>
      (assertThat_hoards _ _).bind Hoards.trans fun _ => pure_hoards _

theorem futureAddCallback_hoards (callbackFn : Option φ) (args : Ptr) :
    Respects (futureAddCallback callbackFn args) Hoards :=
  lockMutex_hoards.bind Hoards.trans fun _ =>
    (modify_hoards (by exact fun _ => ⟨rfl, Nat.le_succ _⟩)).bind Hoards.trans fun _ =>
      unlockMutex_hoards

theorem runScript_hoards (script : Script φ) : Respects (runScript script) Hoards := by
  induction script with
  | done => exact pure_hoards _
  | get onward ih =>
      exact futureGet_hoards.bind Hoards.trans fun value =>
        (modify_hoards (by exact fun _ => ⟨rfl, Nat.le_refl _⟩)).bind Hoards.trans fun _ => ih value
  | wait onward ih => exact futureWait_hoards.bind Hoards.trans fun _ => ih
  | isResolved onward ih => exact get_hoards.bind Hoards.trans fun _ => ih _
  | isFulfilled onward ih => exact get_hoards.bind Hoards.trans fun _ => ih _
  | rejectedCode onward ih => exact get_hoards.bind Hoards.trans fun _ => ih _
  | addCallback callbackFn args onward ih =>
      exact (futureAddCallback_hoards callbackFn args).bind Hoards.trans fun _ => ih

theorem callbackExecute_hoards (self : Addr) : Respects (callbackExecute behave self) Hoards := by
  refine (readCallback_hoards self).bind Hoards.trans fun record =>
    (assertThat_hoards _ _).bind Hoards.trans fun _ =>
      (assertThat_hoards _ _).bind Hoards.trans ?_
  intro _
  cases record.callbackFn with
  | none => exact throw_hoards _
  | some fn =>
      exact get_hoards.bind Hoards.trans fun s =>
        (modify_hoards (by exact fun _ => ⟨rfl, Nat.le_refl _⟩)).bind Hoards.trans fun _ =>
          runScript_hoards _

theorem walkCallbacks_hoards (p : Ptr) : Respects (walkCallbacks behave turns p) Hoards := by
  induction turns generalizing p with
  | zero =>
      cases p with
      | none => exact pure_hoards _
      | some callback => exact throw_hoards _
  | succ turns ih =>
      cases p with
      | none => exact pure_hoards _
      | some callback =>
          exact (callbackExecute_hoards behave callback).bind Hoards.trans fun _ =>
            (readCallback_hoards callback).bind Hoards.trans fun record => ih record.next

theorem perform_hoards (c : FutureCall φ) : Respects (perform behave turns c) Hoards := by
  cases c with
  | addCallback callbackFn args => exact futureAddCallback_hoards callbackFn args
  | settle o =>
      rw [perform, settlePromise_eq]
      exact lockMutex_hoards.bind Hoards.trans fun _ =>
        (modify_hoards (by exact fun _ => ⟨rfl, Nat.le_refl _⟩)).bind Hoards.trans fun _ =>
          unlockMutex_hoards.bind Hoards.trans fun _ => get_hoards.bind Hoards.trans fun s =>
            (assertThat_hoards _ _).bind Hoards.trans fun _ => walkCallbacks_hoards behave turns _

theorem lifeCycle_hoards (calls : List (FutureCall φ)) :
    Respects (lifeCycle behave turns calls) Hoards := by
  induction calls with
  | nil => exact modify_hoards fun _ => ⟨rfl, Nat.le_refl _⟩
  | cons c rest ih => exact (perform_hoards behave turns c).bind Hoards.trans fun _ => ih

/-- A registration creates a record. -/
theorem futureAddCallback_allocates {callbackFn : Option φ} {args : Ptr}
    (leads : Leads (futureAddCallback callbackFn args) s () t) : 0 < t.allocated := by
  obtain ⟨_, s₁, locks, leads⟩ := leads.parts
  obtain ⟨_, s₂, adds, unlocks⟩ := leads.parts
  cases adds
  cases unlocks
  exact Nat.succ_pos _

/-- Nothing is registered, and nothing has been. -/
def Bare (s : CalledFuture φ) : Prop := s.future.callbacks = none ∧ s.allocated = 0

/-- With no callback to run, a settling call creates no record. -/
theorem settlePromise_bare {o : Outcome} (bare : s.Bare)
    (leads : Leads (settlePromise behave turns o) s () t) : t.Bare := by
  rw [settlePromise_eq] at leads
  obtain ⟨_, s₁, locks, leads⟩ := leads.parts
  obtain ⟨_, s₂, settles, leads⟩ := leads.parts
  obtain ⟨_, s₃, unlocks, leads⟩ := leads.parts
  obtain ⟨_, s₄, gets, leads⟩ := leads.parts
  obtain ⟨_, s₅, asserts, walks⟩ := leads.parts
  have locked : s₁ = { s with locked := true } := by
    simp only [Leads, EStateM.run, lockMutex] at locks
    split at locks <;> cases locks
    rfl
  have asserted : s₅ = s₄ := by
    simp only [Leads, EStateM.run, assertThat] at asserts
    split at asserts <;> cases asserts
    rfl
  subst locked asserted
  cases settles
  cases unlocks
  cases gets
  have none_ : (o.settle s.future).callbacks = none := by
    rw [Outcome.settle_callbacks]
    exact bare.1
  rw [show walkCallbacks behave turns (o.settle s.future).callbacks = pure () by
    rw [none_]
    cases turns <;> rfl] at walks
  cases walks
  exact ⟨none_, bare.2⟩

theorem lifeCycle_allocated {calls : List (FutureCall φ)} (bare : s.Bare)
    (leads : Leads (lifeCycle behave turns calls) s () t) :
    t.allocated = 0 ↔ ∀ c ∈ calls, c.isAddCallback = false := by
  induction calls generalizing s with
  | nil =>
      cases leads
      simpa using bare.2
  | cons c rest ih =>
      obtain ⟨_, u, first, onward⟩ := leads.parts
      cases c with
      | addCallback callbackFn args =>
          have created := futureAddCallback_allocates first
          have kept := (lifeCycle_hoards behave turns rest u () t onward).allocated
          have some_ : t.allocated ≠ 0 := by omega
          simp [some_, FutureCall.isAddCallback]
      | settle o =>
          rw [ih (settlePromise_bare behave turns bare first) onward]
          simp [FutureCall.isAddCallback]

/-- Every callback record created has been released exactly once. -/
def AccountsForRecords (s : CalledFuture φ) : Prop := ∀ a < s.allocated, s.released.count a = 1

/-- **A life cycle accounts for its callback records exactly when it creates none**:
when no callback was ever registered. -/
theorem accountsForRecords_iff {calls : List (FutureCall φ)}
    (returned : Leads (lifeCycle behave turns calls) start () t) :
    t.AccountsForRecords ↔ ∀ c ∈ calls, c.isAddCallback = false := by
  have nothing : t.released = [] :=
    (lifeCycle_hoards behave turns calls start () t returned).released
  rw [← lifeCycle_allocated behave turns (s := start) ⟨rfl, rfl⟩ returned]
  constructor
  · intro accounts
    by_contra some_
    have once := accounts 0 (Nat.pos_of_ne_zero some_)
    simp [nothing] at once
  · intro none_ a early
    omega

end LifeCycle

/-- Settled, with nothing to run. -/
theorem accountsForRecords_settled :
    ∃ t, Leads (lifeCycle (fun _ _ _ => .done) 0 [.settle (.fulfill (some 5))])
      (start : CalledFuture Unit) () t ∧ t.AccountsForRecords := by
  have returned : Leads (lifeCycle (fun _ _ _ => .done) 0 [.settle (.fulfill (some 5))])
      (start : CalledFuture Unit) () _ := rfl
  refine ⟨_, returned, (accountsForRecords_iff (fun _ _ _ => .done) 0 returned).2 ?_⟩
  simp [FutureCall.isAddCallback]

/-- One callback registered and run, the future destroyed: its record is still there. -/
theorem record_leaked :
    ∃ t, Leads (lifeCycle (fun _ _ _ => .done) 1
        [.addCallback (some ()) (some 7), .settle (.fulfill (some 5))]) start () t ∧
      t.records 0 ≠ none ∧ ¬ t.AccountsForRecords := by
  refine ⟨_, rfl, ?_, ?_⟩
  · intro none_
    cases none_
  · intro accounts
    have once := accounts 0 (by decide)
    cases once

end CalledFuture

end Cfutures
