/-
# Future.Reentry -- callbacks that call back into their future

What a walk over registered callbacks comes to is a function of the registrations
alone (`fate`): each callback runs in turn, until one cannot be executed (its
argument is NULL) or calls `future_get` on a rejected future, where an assertion
ends the process.

While a callback runs the mutex is free and the outcome fixed (`Ready`), so nothing
it does to the future blocks; what it registers goes in front of the list and is
not ahead of the walk (`Later`, `Listed.of_later`).  `settle_ends` puts it together:
a settling call ends, whatever its callbacks register, and as `fate` says.
-/
import Cfutures.Future.Calls

namespace Cfutures

open Cfutures.Theory

set_option autoImplicit false

/-- Run on a future with this outcome, the script comes to a `future_get` that fails. -/
def Script.getsRejected {φ : Type} (o : Outcome) : Script φ → Bool
  | .done => false
  | .get onward =>
      match o with
      | .fulfill value => (onward value).getsRejected o
      | .reject _ => true
  | .wait onward => onward.getsRejected o
  | .isResolved onward => (onward true).getsRejected o
  | .isFulfilled onward =>
      match o with
      | .fulfill _ => (onward true).getsRejected o
      | .reject _ => (onward false).getsRejected o
  | .rejectedCode onward =>
      match o with
      | .fulfill _ => (onward 0).getsRejected o
      | .reject rc => (onward rc).getsRejected o
  | .addCallback _ _ onward => onward.getsRejected o

theorem Script.getsRejected_fulfill {φ : Type} (value : Ptr) (script : Script φ) :
    script.getsRejected (.fulfill value) = false := by
  induction script with
  | done => rfl
  | get onward ih => exact ih value
  | wait onward ih => exact ih
  | isResolved onward ih => exact ih true
  | isFulfilled onward ih => exact ih true
  | rejectedCode onward ih => exact ih 0
  | addCallback _ _ onward ih => exact ih

namespace CalledFuture

variable {φ : Type} {s t u : CalledFuture φ} {o : Outcome}

/-- The mutex is free, the future has its outcome, and new records get new addresses. -/
structure Ready (o : Outcome) (s : CalledFuture φ) : Prop where
  unlocked : s.locked = false
  shown : o.ShownBy s.future
  fresh : ∀ a, s.allocated ≤ a → s.records a = none

/-- From `s` to `t` callbacks have been registered and values got, nothing else. -/
structure Later (o : Outcome) (s t : CalledFuture φ) : Prop where
  ready : t.Ready o
  records : ∀ a record, s.records a = some record → t.records a = some record
  executed : t.executed = s.executed
  got : ∃ more, t.got = s.got ++ more ∧ ∀ value, o = .fulfill value → ∀ v ∈ more, v = value

theorem Ready.later (ready : s.Ready o) : Later o s s :=
  ⟨ready, fun _ _ h => h, rfl, [], by simp, by simp⟩

theorem Later.trans (first : Later o s t) (second : Later o t u) : Later o s u where
  ready := second.ready
  records a record present := second.records a record (first.records a record present)
  executed := second.executed.trans first.executed
  got := by
    obtain ⟨more, same, values⟩ := first.got
    obtain ⟨more', same', values'⟩ := second.got
    refine ⟨more ++ more', by simp [same, same'], ?_⟩
    intro value fulfilled v member
    rcases List.mem_append.1 member with earlier | here
    · exact values value fulfilled v earlier
    · exact values' value fulfilled v here

theorem Ready.resolved (ready : s.Ready o) : s.future.isResolved = true := by
  have shown := ready.shown
  cases o <;> exact shown.1

/-! ## A callback's own calls -/

theorem Ready.registered (ready : s.Ready o) (callbackFn : Option φ) (args : Ptr) :
    Later o s (s.registered callbackFn args) := by
  refine ⟨⟨ready.unlocked, ?_, ?_⟩, ?_, rfl, [], ?_, ?_⟩
  · cases o <;> exact ready.shown
  · intro a beyond
    have above : s.allocated + 1 ≤ a := beyond
    have ne : a ≠ s.allocated := by omega
    exact (Store.put_ne _ _ ne).trans (ready.fresh a (by omega))
  · intro a record present
    have ne : a ≠ s.allocated := by
      rintro rfl
      rw [ready.fresh s.allocated (Nat.le_refl _)] at present
      cases present
    exact (Store.put_ne _ _ ne).trans present
  · simp [CalledFuture.registered]
  · simp

theorem Ready.futureGet_leads {value : Ptr} (ready : s.Ready (.fulfill value)) :
    Leads futureGet s value s := by
  obtain ⟨resolved, fulfilled, -, got⟩ := ready.shown
  have both : (s.future.isResolved && s.future.isFulfilled) = true := by
    rw [Bool.and_eq_true]
    exact ⟨resolved, fulfilled⟩
  have read : s.future.value = value := by simpa [Cfutures.futureGet, both] using got
  rw [← read]
  exact (futureWait_leads ready.unlocked ready.resolved).bind <| (get_leads s).bind <|
    (assertThat_leads _ resolved).bind <| (assertThat_leads _ fulfilled).bind <| pure_leads _ _

theorem Ready.futureGet_fails {rc : Int} (ready : s.Ready (.reject rc)) :
    Fails futureGet s (.aborted .getFulfilled) s := by
  obtain ⟨resolved, unfulfilled, -⟩ := ready.shown
  exact (futureWait_leads ready.unlocked ready.resolved).bind_fails <| (get_leads s).bind_fails <|
    (assertThat_leads _ resolved).bind_fails <| (assertThat_fails _ unfulfilled).bind

/-- A callback's body never blocks: it ends, unless it gets from a rejected future. -/
theorem runScript_ends (script : Script φ) (ready : s.Ready o) :
    ∃ t, Later o s t ∧ Ends (runScript script) s
      (if script.getsRejected o then some (.aborted .getFulfilled) else none) t := by
  induction script generalizing s with
  | done => exact ⟨s, ready.later, rfl⟩
  | get onward ih =>
      cases o with
      | fulfill value =>
          have here : Later (.fulfill value) s { s with got := s.got ++ [value] } :=
            ⟨⟨ready.unlocked, ready.shown, ready.fresh⟩, fun _ _ h => h, rfl, [value], rfl,
              by simp⟩
          obtain ⟨t, later, ends⟩ := ih value here.ready
          exact ⟨t, here.trans later,
            Ends.after ready.futureGet_leads (Ends.after (modify_leads _ _) ends)⟩
      | reject rc => exact ⟨s, ready.later, ready.futureGet_fails.bind⟩
  | wait onward ih =>
      obtain ⟨t, later, ends⟩ := ih ready
      exact ⟨t, later, Ends.after (futureWait_leads ready.unlocked ready.resolved) ends⟩
  | isResolved onward ih =>
      obtain ⟨t, later, ends⟩ := ih true ready
      refine ⟨t, later, Ends.after (get_leads s) ?_⟩
      rw [show futureIsResolved s.future = true from ready.resolved]
      exact ends
  | isFulfilled onward ih =>
      have shown := ready.shown
      cases o with
      | fulfill value =>
          obtain ⟨t, later, ends⟩ := ih true ready
          refine ⟨t, later, Ends.after (get_leads s) ?_⟩
          rw [shown.2.1]
          exact ends
      | reject rc =>
          obtain ⟨t, later, ends⟩ := ih false ready
          refine ⟨t, later, Ends.after (get_leads s) ?_⟩
          rw [shown.2.1]
          exact ends
  | rejectedCode onward ih =>
      have shown := ready.shown
      cases o with
      | fulfill value =>
          obtain ⟨t, later, ends⟩ := ih 0 ready
          refine ⟨t, later, Ends.after (get_leads s) ?_⟩
          rw [shown.2.2.1]
          exact ends
      | reject rc =>
          obtain ⟨t, later, ends⟩ := ih rc ready
          refine ⟨t, later, Ends.after (get_leads s) ?_⟩
          rw [shown.2.2.1]
          exact ends
  | addCallback callbackFn args onward ih =>
      have here := ready.registered callbackFn args
      obtain ⟨t, later, ends⟩ := ih here.ready
      exact ⟨t, here.trans later,
        Ends.after (futureAddCallback_leads ready.unlocked callbackFn args) ends⟩

/-! ## The walk -/

/-- From pointer `p` on, the records are the registrations `l`, in this order. -/
def Listed (records : Store Addr (Callback φ)) : Ptr → List (φ × Ptr) → Prop
  | p, [] => p = none
  | p, r :: rest => ∃ a record, p = some a ∧ records a = some record ∧
      record.callbackFn = some r.1 ∧ record.args = r.2 ∧ Listed records record.next rest

/-- Registrations go in front: what is listed stays as it is. -/
theorem Listed.of_later {p : Ptr} {l : List (φ × Ptr)} (listed : Listed s.records p l)
    (kept : ∀ a record, s.records a = some record → t.records a = some record) :
    Listed t.records p l := by
  induction l generalizing p with
  | nil => exact listed
  | cons r rest ih =>
      obtain ⟨a, record, rfl, present, fn, args, onward⟩ := listed
      exact ⟨a, record, rfl, kept a record present, fn, args, ih onward⟩

variable (behave : Nat → φ → Ptr → Script φ)

/-- What a walk over the registrations comes to, the `k`-th callback first: the
callbacks it runs, and the assertion that fails, if one does. -/
def fate (o : Outcome) : Nat → List (φ × Ptr) → List (φ × Ptr) × Option Assertion
  | _, [] => ([], none)
  | k, r :: rest =>
      if r.2 = none then ([], some .callbackArgs)
      else if (behave k r.1 r.2).getsRejected o then ([r], some .getFulfilled)
      else (r :: (fate o (k + 1) rest).1, (fate o (k + 1) rest).2)

/-- A callback run without the mutex. -/
def ranFree (r : φ × Ptr) : Ran φ := ⟨r.1, r.2, false⟩

/-- `callback_execute` on a registration with an argument. -/
theorem callbackExecute_ends {a : Addr} {record : Callback φ} {r : φ × Ptr} (ready : s.Ready o)
    (present : s.records a = some record) (fn : record.callbackFn = some r.1)
    (args : record.args = r.2) (nonNull : r.2 ≠ none) :
    ∃ t, Later o { s with executed := s.executed ++ [ranFree r] } t ∧
      Ends (callbackExecute behave a) s
        (if (behave s.executed.length r.1 r.2).getsRejected o then some (.aborted .getFulfilled)
          else none) t := by
  have called : Ready o { s with executed := s.executed ++ [ranFree r] } :=
    ⟨ready.unlocked, ready.shown, ready.fresh⟩
  obtain ⟨t, later, ends⟩ := runScript_ends (behave s.executed.length r.1 r.2) called
  refine ⟨t, later, Ends.after (readCallback_leads present) ?_⟩
  refine Ends.after (assertThat_leads _ (by simp [fn])) ?_
  refine Ends.after (assertThat_leads _ (by simp [args, Option.isSome_iff_ne_none, nonNull])) ?_
  rw [fn, args]
  refine Ends.after (get_leads s) ?_
  refine Ends.after (a := ()) (t := { s with executed := s.executed ++ [ranFree r] }) ?_ ends
  show EStateM.Result.ok () { s with
    executed := s.executed ++ [(⟨r.1, r.2, s.locked⟩ : Ran φ)] } = _
  rw [ready.unlocked]
  rfl

/-- A walk over a list of registrations ends as their fate says, with enough turns. -/
theorem walkCallbacks_ends {p : Ptr} {l : List (φ × Ptr)} {turns : Nat} (ready : s.Ready o)
    (listed : Listed s.records p l) (enough : l.length ≤ turns) :
    ∃ t, t.Ready o ∧ t.executed = s.executed ++ (fate behave o s.executed.length l).1.map ranFree ∧
      (∃ more, t.got = s.got ++ more ∧ ∀ value, o = .fulfill value → ∀ v ∈ more, v = value) ∧
      Ends (walkCallbacks behave turns p) s
        ((fate behave o s.executed.length l).2.map .aborted) t := by
  induction l generalizing s p turns with
  | nil =>
      obtain rfl : p = none := listed
      refine ⟨s, ready, by simp [fate], ⟨[], by simp, by simp⟩, ?_⟩
      cases turns <;> rfl
  | cons r rest ih =>
      obtain ⟨a, record, rfl, present, fn, args, onward⟩ := listed
      obtain ⟨turns, rfl⟩ : ∃ n, turns = n + 1 := Nat.exists_eq_add_one.2 (by
        rw [List.length_cons] at enough
        omega)
      by_cases null : r.2 = none
      · refine ⟨s, ready, by simp [fate, null], ⟨[], by simp, by simp⟩, ?_⟩
        have fails : Fails (callbackExecute behave a) s (.aborted .callbackArgs) s :=
          (readCallback_leads present).bind_fails <|
            (assertThat_leads _ (by simp [fn])).bind_fails <|
              (assertThat_fails _ (by simp [args, null])).bind
        simp only [fate, null, if_true]
        exact fails.bind
      · obtain ⟨t, later, ends⟩ := callbackExecute_ends behave ready present fn args null
        by_cases rejected : (behave s.executed.length r.1 r.2).getsRejected o = true
        · rw [if_pos rejected] at ends
          refine ⟨t, later.ready, ?_, later.got, ?_⟩
          · simp [fate, null, rejected, later.executed]
          · simp only [fate, null, rejected, if_false, if_true]
            exact Fails.bind ends
        · rw [if_neg rejected] at ends
          have enough' : rest.length ≤ turns := by
            rw [List.length_cons] at enough
            omega
          obtain ⟨u, ready', executed, ⟨more, same, values⟩, ends'⟩ :=
            ih later.ready (onward.of_later later.records) enough'
          have count : t.executed.length = s.executed.length + 1 := by simp [later.executed]
          rw [count] at executed ends'
          obtain ⟨more', same', values'⟩ := later.got
          refine ⟨u, ready', ?_, ⟨more' ++ more, ?_, ?_⟩, ?_⟩
          · simp [fate, null, rejected, executed, later.executed]
          · simp [same, same']
          · intro value fulfilled v member
            rcases List.mem_append.1 member with earlier | here
            · exact values' value fulfilled v earlier
            · exact values value fulfilled v here
          · simp only [fate, null, rejected, if_false, Bool.false_eq_true]
            have present' := later.records a record present
            exact Ends.after ends (Ends.after (readCallback_leads present') ends')

/-! ## Registrations, then a settling call -/

theorem registerAll_leads (regs : List (φ × Ptr)) {l : List (φ × Ptr)} (unlocked : s.locked = false)
    (unset : s.future = { futureNew with callbacks := s.future.callbacks })
    (fresh : ∀ a, s.allocated ≤ a → s.records a = none)
    (listed : Listed s.records s.future.callbacks l) :
    ∃ t, Leads (registerAll regs) s () t ∧ t.locked = false ∧
      t.future = { futureNew with callbacks := t.future.callbacks } ∧
      (∀ a, t.allocated ≤ a → t.records a = none) ∧
      Listed t.records t.future.callbacks (regs.reverse ++ l) ∧
      t.executed = s.executed ∧ t.got = s.got := by
  induction regs generalizing s l with
  | nil => exact ⟨s, pure_leads _ _, unlocked, unset, fresh, listed, rfl, rfl⟩
  | cons r regs ih =>
      have kept : ∀ a record, s.records a = some record →
          (s.registered (some r.1) r.2).records a = some record := by
        intro a record present
        have ne : a ≠ s.allocated := by
          rintro rfl
          rw [fresh s.allocated (Nat.le_refl _)] at present
          cases present
        exact (Store.put_ne _ _ ne).trans present
      have unset' : (s.registered (some r.1) r.2).future =
          { futureNew with callbacks := (s.registered (some r.1) r.2).future.callbacks } := by
        show { s.future with callbacks := some s.allocated } = _
        rw [unset]
        rfl
      have fresh' : ∀ a, s.allocated + 1 ≤ a → (s.registered (some r.1) r.2).records a = none := by
        intro a beyond
        have ne : a ≠ s.allocated := by omega
        exact (Store.put_ne _ _ ne).trans (fresh a (by omega))
      have listed' : Listed (s.registered (some r.1) r.2).records
          (s.registered (some r.1) r.2).future.callbacks (r :: l) :=
        ⟨s.allocated, _, rfl, Store.put_same .., rfl, rfl, listed.of_later kept⟩
      obtain ⟨t, leads, rest⟩ :=
        ih (s := s.registered (some r.1) r.2) unlocked unset' fresh' listed'
      refine ⟨t, (futureAddCallback_leads unlocked (some r.1) r.2).bind leads, ?_⟩
      simpa [CalledFuture.registered] using rest

/-- A settling call after any registrations ends as their fate says. -/
theorem settle_ends (regs : List (φ × Ptr)) (o : Outcome) {turns : Nat}
    (enough : regs.length ≤ turns) :
    ∃ t, t.locked = false ∧ t.executed = (fate behave o 0 regs.reverse).1.map ranFree ∧
      (∀ value, o = .fulfill value → ∀ v ∈ t.got, v = value) ∧
      Ends (do registerAll regs; settlePromise behave turns o) start
        ((fate behave o 0 regs.reverse).2.map .aborted) t := by
  obtain ⟨s, leads, unlocked, unset, fresh, listed, executed, got⟩ :=
    registerAll_leads regs (s := start) (l := []) rfl rfl (fun _ _ => rfl) rfl
  have ready : Ready o { s with future := o.settle s.future } := by
    refine ⟨unlocked, ?_, fresh⟩
    show o.ShownBy (o.settle s.future)
    rw [unset]
    exact o.settle_shows _
  have listed' : Listed s.records (o.settle s.future).callbacks regs.reverse := by
    rw [Outcome.settle_callbacks]
    simpa using listed
  obtain ⟨t, ready', ran, ⟨more, same, values⟩, ends⟩ :=
    walkCallbacks_ends behave ready listed' (by simpa using enough)
  have ranNone : s.executed = [] := executed
  have gotNone : s.got = [] := got
  have zero : s.executed.length = 0 := by simp [ranNone]
  simp only [zero] at ran ends
  refine ⟨t, ready'.unlocked, by simpa [ranNone] using ran, ?_, ?_⟩
  · intro value fulfilled v member
    have member' : v ∈ more := by simpa [same, gotNone] using member
    exact values value fulfilled v member'
  · rw [settlePromise_eq]
    have unlocks : Leads unlockMutex { s with locked := true, future := o.settle s.future } ()
        { s with future := o.settle s.future } := by
      show EStateM.Result.ok () { s with locked := false, future := o.settle s.future } = _
      rw [← unlocked]
    have settles := modify_leads (ε := Stuck)
      (fun s : CalledFuture φ => { s with future := o.settle s.future }) { s with locked := true }
    exact Ends.after leads <| Ends.after (lockMutex_leads unlocked) <| Ends.after settles <|
      Ends.after unlocks <| Ends.after (get_leads _) <|
        Ends.after (assertThat_leads _ ready.resolved) ends

end CalledFuture

end Cfutures
