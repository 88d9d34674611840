/-
# Queue.Wakeup -- no item waits for a sleeper

While some consumer is asleep, there are at most as many items on the chain as
consumers that were signalled and have not looked at `head` since (`Covered`).
An enqueue adds one of each; a consumer that takes an item accounts for at most
one of the signalled ones, its own; a signalled one that is cancelled passes its
signal on; and a consumer goes to sleep only when there is no item at all.  The
chain may grow by less than an enqueue promises (`enqueue_adrift`): that only
helps.

Spurious wake-ups are not counted, so the bound holds without them.
-/
import Cfutures.Queue.Sound
import Cfutures.Theory.Tally

namespace Cfutures

open Cfutures.Theory

set_option autoImplicit false

universe u v

def Phase.isSignalled : Phase → Bool
  | .woken true => true
  | _ => false

def Phase.isWoken : Phase → Bool
  | .woken _ => true
  | _ => false

namespace WorkQueue

set_option linter.unusedSectionVars false

variable {C : Type u} {α : Type v} [Fintype C] [DecidableEq C]
variable {s t : WorkQueue C α} {l m : List Addr} {c : C}
variable {past : List (WorkQueue C α × QueueAction C α)}

/-- Consumers woken, by a signal or not, that have yet to look at `head` again. -/
def wokenCount (s : WorkQueue C α) : Nat := tally Phase.isWoken s.phase

def signalledCount (s : WorkQueue C α) : Nat := tally Phase.isSignalled s.phase

def SomeoneAsleep (s : WorkQueue C α) : Prop := ∃ c, s.phase c = .asleep

def Covered (s : WorkQueue C α) (l : List Addr) : Prop :=
  s.SomeoneAsleep → l.length ≤ s.signalledCount

theorem signalledCount_le (s : WorkQueue C α) : s.signalledCount ≤ s.wokenCount :=
  tally_le_of_imp fun phase signalled => by
    cases phase with
    | woken b => rfl
    | _ => cases signalled

/-- With a sleeper and nobody signalled, there is nothing on the chain. -/
theorem Covered.chain_empty (covered : s.Covered l) (asleep : s.phase c = .asleep)
    (nobody : ∀ d, (s.phase d).isSignalled = false) : l = [] := by
  have none_ : s.signalledCount = 0 := by
    by_contra some_
    obtain ⟨d, signalled⟩ := tally_pos_iff.1 (Nat.pos_of_ne_zero some_)
    rw [nobody d] at signalled
    cases signalled
  have bound := covered ⟨c, asleep⟩
  exact List.length_eq_zero_iff.1 (by omega)

/-- A signal either finds a sleeper and adds one to the signalled, or there is no
sleeper and nothing changes. -/
theorem condSignal_count {phase phase' : C → Phase} {wake : Option C}
    (signalled : condSignal phase wake = some phase') :
    tally Phase.isSignalled phase' = tally Phase.isSignalled phase + 1 ∨
      (phase' = phase ∧ ∀ c, phase c ≠ .asleep) := by
  rcases condSignal_cases signalled with ⟨c, -, sleeping, rfl⟩ | ⟨-, nobody, rfl⟩
  · left
    have := tally_update Phase.isSignalled phase c (.woken true)
    simpa [sleeping, Phase.isSignalled] using this
  · exact Or.inr ⟨rfl, nobody⟩

theorem condSignal_asleep {phase phase' : C → Phase} {wake : Option C}
    (signalled : condSignal phase wake = some phase') {c : C} (sleeping : phase' c = .asleep) :
    phase c = .asleep := by
  rcases condSignal_apply signalled c with same | ⟨before, -⟩
  · rw [← same, sleeping]
  · exact before

/-- Moving one consumer, awake before and after, by steps that do not signal it. -/
theorem signalledCount_update (phase : C → Phase) (c : C) {after : Phase}
    (notSignalled : after.isSignalled = false) :
    tally Phase.isSignalled phase ≤
      tally Phase.isSignalled (Function.update phase c after) + 1 := by
  have moved := tally_update Phase.isSignalled phase c after
  have one : ((phase c).isSignalled).toNat ≤ 1 := Bool.toNat_le _
  simp only [notSignalled, Bool.toNat_false] at moved
  omega

theorem asleep_of_update {phase : C → Phase} {after : Phase} (awake : after ≠ .asleep) {d : C}
    (sleeping : Function.update phase c after d = .asleep) : phase d = .asleep := by
  by_cases same : d = c
  · simp [same, awake] at sleeping
  · simpa [same] using sleeping

/-! ## Each step keeps the items covered -/

theorem Covered.enqueueStep {item : Addr} {value : α} {wake : Option C} (covered : s.Covered l)
    (stepped : s.enqueueStep item value wake = some t) (grown : m.length ≤ l.length + 1) :
    t.Covered m := by
  obtain ⟨-, queue, phase, -, signalled, rfl⟩ := enqueueStep_cases stepped
  rintro ⟨d, sleeping⟩
  have before : s.SomeoneAsleep := ⟨d, condSignal_asleep signalled sleeping⟩
  have bound := covered before
  rcases condSignal_count signalled with more | ⟨rfl, nobody⟩
  · simp only [signalledCount] at bound ⊢
    omega
  · exact absurd sleeping (nobody d)

theorem Covered.popStep_sleep (empty : l = [])  : t.Covered l := fun _ => by
  simp [empty]

theorem Covered.popStep_take {item : Addr} (covered : s.Covered (item :: l))
    (phase : t.phase = Function.update s.phase c (.holding item)) : t.Covered l := by
  rintro ⟨d, sleeping⟩
  rw [phase] at sleeping
  have before : s.SomeoneAsleep := ⟨d, asleep_of_update (by simp) sleeping⟩
  have bound := covered before
  have fewer : s.signalledCount ≤ t.signalledCount + 1 := by
    rw [signalledCount, signalledCount, phase]
    exact signalledCount_update s.phase c rfl
  rw [List.length_cons] at bound
  omega

theorem Covered.returnStep {result : α × WorkQueue C α} (covered : s.Covered l)
    (stepped : s.returnStep c = some result) : result.2.Covered l := by
  obtain ⟨item, record, holding, -, rfl⟩ := returnStep_cases stepped
  rintro ⟨d, sleeping⟩
  have bound := covered ⟨d, asleep_of_update (by simp) sleeping⟩
  have same := tally_update Phase.isSignalled s.phase c .outside
  simp only [holding, Phase.isSignalled, Bool.toNat_false] at same
  simp only [signalledCount] at bound ⊢
  omega

theorem Covered.spuriousStep (covered : s.Covered l) (stepped : s.spuriousStep c = some t) :
    t.Covered l := by
  obtain ⟨asleep, rfl⟩ := spuriousStep_cases stepped
  rintro ⟨d, sleeping⟩
  have bound := covered ⟨d, asleep_of_update (by simp) sleeping⟩
  have same := tally_update Phase.isSignalled s.phase c (.woken false)
  simp only [asleep, Phase.isSignalled, Bool.toNat_false] at same
  simp only [signalledCount] at bound ⊢
  omega

/-- A signalled consumer that is cancelled hands its signal to another sleeper. -/
theorem Covered.cancelStep {heir : Option C} (covered : s.Covered l)
    (stepped : s.cancelStep c heir = some t) : t.Covered l := by
  rcases cancelStep_cases stepped with ⟨woken, phase, signalled, rfl⟩ | ⟨quiet, -, rfl⟩
  · rintro ⟨d, sleeping⟩
    have stillAsleep := condSignal_asleep signalled sleeping
    have bound := covered ⟨d, asleep_of_update (by simp) stillAsleep⟩
    have gone := tally_update Phase.isSignalled s.phase c .cancelled
    simp only [woken, Phase.isSignalled, Bool.toNat_false, Bool.toNat_true] at gone
    rcases condSignal_count signalled with more | ⟨rfl, nobody⟩
    · simp only [signalledCount] at bound ⊢
      omega
    · exact absurd stillAsleep (nobody d)
  · rintro ⟨d, sleeping⟩
    have bound := covered ⟨d, asleep_of_update (by simp) sleeping⟩
    have same := tally_update Phase.isSignalled s.phase c .cancelled
    have notSignalled : (s.phase c).isSignalled = false := by
      rcases quiet with asleep | woken
      · rw [asleep]; rfl
      · rw [woken]; rfl
    rw [notSignalled] at same
    simp only [Phase.isSignalled, Bool.toNat_false] at same
    simp only [signalledCount] at bound ⊢
    omega

theorem Sound.covered_step (sound : s.Sound l) (covered : s.Covered l) {a : QueueAction C α}
    (stepped : s.step a = some t) : ∃ m, t.Sound m ∧ t.Covered m := by
  cases a with
  | enqueue item value wake =>
      obtain ⟨-, -, ⟨-, sound', -⟩ | ⟨-, sound', -⟩⟩ := sound.enqueueStep stepped
      · exact ⟨_, sound', covered.enqueueStep stepped (by simp)⟩
      · exact ⟨_, sound', covered.enqueueStep stepped (by simp)⟩
  | pop c =>
      obtain ⟨-, ⟨empty, -, -, sound'⟩ | ⟨item, rest, rfl, holding, -, sound', -⟩⟩ :=
        sound.popStep stepped
      · have nil : l = [] := by
          have := (Chain.ne_nil_iff sound.shaped.holds).not.2 (not_not.2 empty)
          simpa using this
        exact ⟨_, sound', Covered.popStep_sleep nil⟩
      · refine ⟨_, sound', covered.popStep_take (c := c) ?_⟩
        obtain ⟨-, ⟨-, rfl⟩ | ⟨item', queue, record, -, -, rfl⟩⟩ := popStep_cases stepped
        · simp at holding
        · obtain rfl : item' = item := by simpa using holding
          rfl
  | «return» c =>
      obtain ⟨result, returned, rfl⟩ := Option.map_eq_some_iff.1 stepped
      exact ⟨l, (sound.returnStep returned).2.2.2.2.2, covered.returnStep returned⟩
  | spurious c => exact ⟨l, (sound.spuriousStep stepped).2.2.2, covered.spuriousStep stepped⟩
  | cancel c heir => exact ⟨l, (sound.cancelStep stepped).2.2.2, covered.cancelStep stepped⟩

theorem run_covered (run : (machine C α).Run past s) : ∃ l, s.Sound l ∧ s.Covered l :=
  Machine.Run.invariant (I := fun s : WorkQueue C α => ∃ l, s.Sound l ∧ s.Covered l)
    ⟨[], start_sound, fun _ => Nat.zero_le _⟩
    (fun _ _ _ ⟨_, sound, covered⟩ stepped => sound.covered_step covered stepped) run

/-- **No lost wake-up**: while a consumer is asleep, the items found from `head`
are at most as many as the consumers woken that have not rechecked; so no item is
left with a sleeper and nobody on the way. -/
theorem items_le_woken (run : (machine C α).Run past s) (asleep : s.SomeoneAsleep) :
    ∃ l, s.queue.Holds l ∧ l.length ≤ s.wokenCount ∧
      ¬ (s.queue.head ≠ none ∧ ∀ c, (s.phase c).isWoken = false) := by
  obtain ⟨l, sound, covered⟩ := run_covered run
  have bound : l.length ≤ s.wokenCount := (covered asleep).trans s.signalledCount_le
  refine ⟨l, sound.shaped.holds, bound, ?_⟩
  rintro ⟨busy, nobody⟩
  have some_ : 0 < l.length :=
    List.length_pos_of_ne_nil ((Chain.ne_nil_iff sound.shaped.holds).2 busy)
  obtain ⟨c, woken⟩ := tally_pos_iff.1 (some_.trans_le bound)
  rw [nobody c] at woken
  cases woken

/-- Three consumers: one asleep, one signalled for the item on the chain, and one
woken without a signal. -/
theorem items_le_woken_one_sleeper :
    ∃ past s, (machine (Fin 3) Nat).Run past s ∧ s.SomeoneAsleep ∧ s.queue.head ≠ none ∧
      ∃ l, s.queue.Holds l ∧ l.length ≤ s.wokenCount := by
  obtain ⟨past, s, run, seen⟩ := Machine.exists_run_of_exec (M := machine (Fin 3) Nat)
    (p := fun r => decide (r.2.phase 0 = .asleep) && r.2.queue.head.isSome)
    [.pop 0, .pop 1, .pop 2, .enqueue 0 7 (some 1), .spurious 2] (by decide)
  simp only [Bool.and_eq_true, decide_eq_true_eq] at seen
  obtain ⟨l, holds, bound, -⟩ := items_le_woken run ⟨0, seen.1⟩
  exact ⟨past, s, run, ⟨0, seen.1⟩, Option.isSome_iff_ne_none.1 seen.2, l, holds, bound⟩

end WorkQueue

end Cfutures
