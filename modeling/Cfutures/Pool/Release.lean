/-
# Pool.Release -- each closure is released once, by the worker that ran it

A delivered closure is on record as long as its worker has not come to
`free (closure)`: a delivery stops being busy only there (`Busy.step`).  So a delivery
that is no longer busy has been released, and exactly once (`released_once`), and a
worker that ends in the wait of `queue_pop` is busy with nothing (`idle_at_end`).
-/
import Cfutures.Pool.Ledger

namespace Cfutures

open Cfutures.Theory

set_option autoImplicit false

universe u v

namespace WorkQueue

variable {C : Type u} {α : Type v} [Fintype C] [DecidableEq C] {s t : WorkQueue C α} {c : C}

set_option linter.unusedSectionVars false

/-- A consumer keeps the item it holds until it returns. -/
theorem step_holding {item : Addr} (holding : s.phase c = .holding item) {a : QueueAction C α}
    (stepped : s.step a = some t) (stays : a ≠ .return c) :
    t.phase c = .holding item ∧ t.lastTo c = s.lastTo c := by
  cases a with
  | enqueue item value wake =>
      obtain ⟨-, queue, phase, -, signalled, rfl⟩ := enqueueStep_cases stepped
      have awake : s.phase c ≠ .asleep := by simp [holding]
      exact ⟨(condSignal_other signalled awake).trans holding, rfl⟩
  | pop d =>
      obtain ⟨testing, taken⟩ := popStep_cases stepped
      have ne : c ≠ d := by
        rintro rfl
        simp [holding, Phase.testing] at testing
      rcases taken with ⟨-, rfl⟩ | ⟨item', queue, record, -, -, rfl⟩
      · exact ⟨by simp [ne, holding], rfl⟩
      · exact ⟨by simp [ne, holding], by simp [lastTo, Ne.symm ne]⟩
  | «return» d =>
      have ne : c ≠ d := fun same => stays (same ▸ rfl)
      obtain ⟨returned, read, rfl⟩ := Option.map_eq_some_iff.1 stepped
      obtain ⟨item', record, -, -, rfl⟩ := returnStep_cases read
      exact ⟨by simp [ne, holding], rfl⟩
  | spurious d =>
      obtain ⟨sleeping, rfl⟩ := spuriousStep_cases stepped
      have ne : c ≠ d := by
        rintro rfl
        rw [holding] at sleeping
        cases sleeping
      exact ⟨by simp [ne, holding], rfl⟩
  | cancel d heir =>
      obtain ⟨-, delivered, -, notHolding, others⟩ := cancelStep_phase stepped
      have ne : c ≠ d := fun same => notHolding item (same ▸ holding)
      have kept : t.lastTo c = s.lastTo c := by simp only [lastTo, delivered]
      rcases others c ne with same | ⟨sleeping, -⟩
      · exact ⟨same.trans holding, kept⟩
      · rw [holding] at sleeping
        cases sleeping

/-- A delivery is to the consumer that pops, which now holds the item. -/
theorem step_delivered {a : QueueAction C α} (stepped : s.step a = some t) {d : Delivery C α}
    (member : d ∈ t.delivered) :
    d ∈ s.delivered ∨ ((∃ item, t.phase d.consumer = .holding item) ∧
      t.lastTo d.consumer = some d) := by
  cases a with
  | enqueue item value wake =>
      obtain ⟨-, queue, phase, -, -, rfl⟩ := enqueueStep_cases stepped
      exact Or.inl member
  | pop c =>
      obtain ⟨-, ⟨-, rfl⟩ | ⟨item, queue, record, -, -, rfl⟩⟩ := popStep_cases stepped
      · exact Or.inl member
      · rcases List.mem_append.1 member with earlier | last
        · exact Or.inl earlier
        · obtain rfl := List.mem_singleton.1 last
          exact Or.inr ⟨⟨item, by simp⟩, by simp [lastTo]⟩
  | «return» c =>
      obtain ⟨returned, read, rfl⟩ := Option.map_eq_some_iff.1 stepped
      obtain ⟨item, record, -, -, rfl⟩ := returnStep_cases read
      exact Or.inl member
  | spurious c =>
      obtain ⟨-, rfl⟩ := spuriousStep_cases stepped
      exact Or.inl member
  | cancel c heir =>
      obtain ⟨-, delivered, -⟩ := cancelStep_phase stepped
      exact Or.inl (delivered ▸ member)

end WorkQueue

/-- A worker keeps its closure until it releases it. -/
theorem Worker.Next.closure {p q : Worker} (next : p.Next q) {c : Addr}
    (holds : p.closure = some c) : q.closure = some c ∨ p = .releasing c := by
  cases next <;> simp_all [Worker.closure]

namespace Pool

variable {n : Nat} {F : Type u} {U : Type v} {s t : Pool n F U} {c : Addr} {w : Fin n}
variable {past : List (Pool n F U × PoolAction n F U)}

/-- The step is `free (closure)` of closure `c`. -/
def frees (c : Addr) (s : Pool n F U) : PoolAction n F U → Bool
  | .work w .free => decide (s.worker w = .releasing c)
  | _ => false

/-- What a step does to the closures on record. -/
theorem step_closures {a : PoolAction n F U} (stepped : s.step a = some t) :
    (t.closures = s.closures ∧ t.submissions = s.submissions ∧ ∀ c, s.frees c a = false) ∨
      (∃ closure, t.closures = s.closures.put s.submissions.length closure ∧
        t.submissions.length = s.submissions.length + 1 ∧ ∀ c, s.frees c a = false) ∨
      ∃ w d, a = .work w .free ∧ s.worker w = .releasing d ∧ s.closures d ≠ none ∧
        t.closures = s.closures.free d ∧ t.submissions = s.submissions := by
  cases step_takes stepped with
  | execute => exact Or.inr (Or.inl ⟨_, rfl, by simp [setStage], fun _ => rfl⟩)
  | @free w d place present =>
      exact Or.inr (Or.inr ⟨w, d, rfl, place, Option.isSome_iff_ne_none.1 present, rfl, rfl⟩)
  | _ => exact Or.inl ⟨rfl, rfl, fun _ => rfl⟩

/-- A closure has been released once when it is off the record, and not before. -/
theorem count_frees (run : (machine n F U).Run past s) (c : Addr) :
    (past.countP fun e => e.1.frees c e.2) =
      if decide (c < s.submissions.length) && (s.closures c).isNone then 1 else 0 := by
  induction run with
  | none => simp [machine, start]
  | @step past s a t before stepped ih =>
      rw [List.countP_append, ih, List.countP_singleton]
      rcases step_closures stepped with ⟨closures, submissions, other⟩ |
        ⟨closure, closures, submissions, other⟩ |
        ⟨w, d, rfl, place, present, closures, submissions⟩
      · simp [other, closures, submissions]
      · by_cases new : c = s.submissions.length
        · simp [other, closures, submissions, new]
        · have older : c < s.submissions.length + 1 ↔ c < s.submissions.length :=
            ⟨fun early => Nat.lt_of_le_of_ne (Nat.le_of_lt_succ early) new, Nat.lt_succ_of_lt⟩
          simp [other, closures, submissions, older, Store.put_ne _ _ new]
      · by_cases same : c = d
        · subst same
          obtain ⟨closure, here⟩ := Option.ne_none_iff_exists'.1 present
          obtain ⟨-, submitted⟩ := (run_wired before).closure c closure here
          have born : c < s.submissions.length := (List.getElem?_eq_some_iff.1 submitted).1
          simp [frees, place, here, closures, submissions, born]
        · simp [frees, place, Ne.symm same, closures, submissions, Store.free_ne _ same]

/-- A worker goes on from `free (closure)` only by it. -/
theorem step_releasing {a : PoolAction n F U} (stepped : s.step a = some t)
    (place : s.worker w = .releasing c) : t.worker w = .releasing c ∨ a = .work w .free := by
  have other : ∀ {v : Fin n} {place' : Worker}, s.worker v ≠ .releasing c →
      Function.update s.worker v place' w = .releasing c := fun {v place'} notHere => by
    have ne : w ≠ v := by
      rintro rfl
      exact notHere place
    rw [Function.update_of_ne ne]
    exact place
  cases step_takes stepped with
  | «return» there | call there | ret there | fulfill there | settle there
  | cancelledWait _ there | cancelledTask _ there | cancelledCallback _ there =>
      exact Or.inl (other (by simp [there]))
  | @walk v step d f k future there =>
      left
      by_cases last : step = .finish
      · simpa [last] using other (by simp [there])
      · simpa [last] using place
  | @free v d there =>
      by_cases same : v = w
      · exact Or.inr (by rw [same])
      · exact Or.inl ((Function.update_of_ne (Ne.symm same) ..).trans place)
  | _ => exact Or.inl place

/-- A worker that holds an item comes out of `queue_pop` with its value. -/
theorem Busy.return (run : (machine n F U).Run past s) {d : Delivery (Fin n) Addr}
    (last : s.workQueue.lastTo d.consumer = some d)
    (stepped : s.step (.pop d.consumer .return) = some t) : t.Busy d := by
  obtain ⟨l, sound⟩ := WorkQueue.run_sound (run_queue run)
  cases step_takes stepped with
  | «return» popping taken =>
      obtain ⟨item, record, holding, present, same⟩ := WorkQueue.returnStep_cases taken
      obtain ⟨-, -, record', present', last'⟩ := sound.held _ item holding
      rw [present, Option.some.injEq] at present'
      subst present'
      rw [last, Option.some.injEq] at last'
      cases same
      left
      simp only [moveWorker, Function.update_self, Worker.closure]
      rw [last']

/-- A busy delivery stays busy until its worker releases the closure. -/
theorem Busy.step (run : (machine n F U).Run past s) {d : Delivery (Fin n) Addr}
    (busy : s.Busy d) {a : PoolAction n F U} (stepped : s.step a = some t) :
    t.Busy d ∨ s.frees d.value a = true := by
  rcases busy with holds | ⟨⟨item, holding⟩, last⟩
  · rcases step_worker stepped with same | ⟨v, place, next, same⟩
    · exact Or.inl (Or.inl (same ▸ holds))
    · by_cases here : d.consumer = v
      · subst here
        rcases next.closure holds with kept | releasing
        · exact Or.inl (Or.inl (by rw [same, Function.update_self]; exact kept))
        · rcases step_releasing stepped releasing with stays | rfl
          · exact Or.inl (Or.inl (by rw [stays]; rfl))
          · exact Or.inr (by simp [frees, releasing])
      · exact Or.inl (Or.inl (by rw [same, Function.update_of_ne here]; exact holds))
  · left
    by_cases returns : a = .pop d.consumer .return
    · subst returns
      exact Busy.return run last stepped
    · rcases Machine.moves_cases (projects_queue s a t stepped) with
        ⟨-, same⟩ | ⟨b, named, moves⟩
      · rw [Busy, show t.workQueue = s.workQueue from same]
        exact Or.inr ⟨⟨item, holding⟩, last⟩
      · have stays : b ≠ .return d.consumer := by
          rintro rfl
          unfold queueAction at named
          split at named <;> cases named
          exact returns rfl
        obtain ⟨holding', last'⟩ := WorkQueue.step_holding holding moves stays
        exact Or.inr ⟨⟨item, holding'⟩, last'.trans last⟩

/-- A delivery is to a worker that holds the item. -/
theorem step_delivered {a : PoolAction n F U} (stepped : s.step a = some t)
    {d : Delivery (Fin n) Addr} (member : d ∈ t.workQueue.delivered) :
    d ∈ s.workQueue.delivered ∨ ((∃ item, t.workQueue.phase d.consumer = .holding item) ∧
      t.workQueue.lastTo d.consumer = some d) := by
  rcases Machine.moves_cases (projects_queue s a t stepped) with ⟨-, same⟩ | ⟨b, -, moves⟩
  · exact Or.inl ((show t.workQueue = s.workQueue from same) ▸ member)
  · exact WorkQueue.step_delivered moves member

/-- The closure of a delivery is on record only while its worker has it. -/
theorem busy_of_present (run : (machine n F U).Run past s) {d : Delivery (Fin n) Addr}
    (member : d ∈ s.workQueue.delivered) (present : s.closures d.value ≠ none) : s.Busy d := by
  induction run with
  | none => cases member
  | @step past s a t before stepped ih =>
      obtain ⟨l, sound⟩ := WorkQueue.run_sound (run_queue before)
      rcases step_delivered stepped member with older | new
      · obtain ⟨task, submitted⟩ := delivered_born (run_wired before) sound
          (List.mem_map_of_mem older)
        have born : d.value < s.submissions.length := (List.getElem?_eq_some_iff.1 submitted).1
        have kept : s.closures d.value ≠ none ∧ s.frees d.value a = false := by
          rcases step_closures stepped with ⟨closures, -, other⟩ | ⟨closure, closures, -, other⟩ |
            ⟨w, c, rfl, place, -, closures, -⟩
          · exact ⟨closures ▸ present, other _⟩
          · rw [closures, Store.put_ne _ _ (Nat.ne_of_lt born)] at present
            exact ⟨present, other _⟩
          · by_cases same : d.value = c
            · simp [closures, same] at present
            · rw [closures, Store.free_ne _ same] at present
              exact ⟨present, by simp [frees, place, Ne.symm same]⟩
        have onward := (ih older kept.1).step before stepped
        simpa [kept.2] using onward
      · exact Or.inr new

/-- **A delivery that is no longer with its worker has been released exactly once.** -/
theorem released_once (run : (machine n F U).Run past s) {d : Delivery (Fin n) Addr}
    (member : d ∈ s.workQueue.delivered) (idle : ¬ s.Busy d) :
    (past.countP fun e => e.1.frees d.value e.2) = 1 := by
  obtain ⟨l, sound⟩ := WorkQueue.run_sound (run_queue run)
  obtain ⟨task, submitted⟩ := delivered_born (run_wired run) sound (List.mem_map_of_mem member)
  have born : d.value < s.submissions.length := (List.getElem?_eq_some_iff.1 submitted).1
  have gone : s.closures d.value = none := by
    by_contra present
    exact idle (busy_of_present run member present)
  simp [count_frees run, born, gone]

/-- A worker that is gone goes nowhere. -/
theorem step_terminated {ending : Ending} (gone : s.worker w = .terminated ending)
    {a : PoolAction n F U} (stepped : s.step a = some t) : t.worker w = .terminated ending := by
  rcases step_worker stepped with same | ⟨v, place, next, same⟩
  · rw [same, gone]
  · have ne : w ≠ v := by
      rintro rfl
      rw [gone] at next
      cases next
    rw [same, Function.update_of_ne ne, gone]

theorem alive_of_work {a : WorkAction} (stepped : s.step (.work w a) = some t) :
    s.isTerminated w = false := by
  cases step_takes stepped <;> simp_all [isTerminated]

theorem alive_of_pop {a : PopAction} (stepped : s.step (.pop w a) = some t) :
    s.isTerminated w = false := by
  cases step_takes stepped <;> simp_all [isTerminated]

theorem cancelledWait_terminated {heir : Option (Fin n)}
    (stepped : s.step (.cancelled w (.wait heir)) = some t) :
    ∃ woken, t.worker w = .terminated (.waiting woken) := by
  cases step_takes stepped with
  | cancelledWait => exact ⟨_, Function.update_self ..⟩

/-- A worker ends in the wait of `queue_pop` only by a step of its own there. -/
theorem step_ends_waiting {woken : Bool} (alive : s.worker w ≠ .terminated (.waiting woken))
    {a : PoolAction n F U} (stepped : s.step a = some t)
    (gone : t.worker w = .terminated (.waiting woken)) :
    ∃ heir, a = .cancelled w (.wait heir) ∧ s.worker w = .popping ∧
      s.workQueue.cancelStep w heir = some t.workQueue := by
  have other : ∀ {v : Fin n} {place : Worker}, place ≠ .terminated (.waiting woken) →
      Function.update s.worker v place w ≠ .terminated (.waiting woken) := by
    intro v place ne
    by_cases same : w = v
    · subst same
      simpa using ne
    · simpa [same] using alive
  cases step_takes stepped with
  | «return» | call | ret | fulfill | settle | free | cancelledTask | cancelledCallback =>
      exact absurd gone (other (by simp))
  | @walk v step c =>
      by_cases last : step = .finish
      · exact absurd gone (by simpa [last] using other (by simp))
      · exact absurd gone (by simpa [last] using alive)
  | @cancelledWait v heir workQueue _ popping taken =>
      by_cases same : w = v
      · subst same
        exact ⟨heir, rfl, popping, taken⟩
      · refine absurd ?_ alive
        rw [← gone]
        exact (Function.update_of_ne same ..).symm
  | _ => exact absurd gone alive

/-- Nothing is delivered to a worker that is gone. -/
theorem delivered_before_end (run : (machine n F U).Run past s) {a : PoolAction n F U}
    (stepped : s.step a = some t) {d : Delivery (Fin n) Addr} (member : d ∈ t.workQueue.delivered)
    {ending : Ending} (gone : t.worker d.consumer = .terminated ending) :
    d ∈ s.workQueue.delivered := by
  rcases step_delivered stepped member with older | ⟨⟨item, holding⟩, -⟩
  · exact older
  · have phase := (run_ledger (run.step stepped)).phase d.consumer
    rw [gone, holding] at phase
    cases ending <;> cases phase

/-- **What a worker was given it has done with before it ends in `queue_pop`.** -/
theorem idle_at_end (run : (machine n F U).Run past s) {woken : Bool}
    (gone : s.worker w = .terminated (.waiting woken)) :
    ∃ before u heir after, past = before ++ (u, .cancelled w (.wait heir)) :: after ∧
      (machine n F U).Run before u ∧
      ∀ d ∈ s.workQueue.delivered, d.consumer = w → d ∈ u.workQueue.delivered ∧ ¬ u.Busy d := by
  induction run with
  | none => cases gone
  | @step past s a t before stepped ih =>
      have older : ∀ d ∈ t.workQueue.delivered, d.consumer = w → d ∈ s.workQueue.delivered :=
        fun d member mine => delivered_before_end before stepped member (mine ▸ gone)
      by_cases earlier : s.worker w = .terminated (.waiting woken)
      · obtain ⟨pre, u, heir, post, rfl, upto, idle⟩ := ih earlier
        exact ⟨pre, u, heir, post ++ [(s, a)], by simp, upto,
          fun d member mine => idle d (older d member mine) mine⟩
      · obtain ⟨heir, rfl, popping, cancelled⟩ := step_ends_waiting earlier stepped gone
        obtain ⟨-, -, -, notHolding, -⟩ := WorkQueue.cancelStep_phase cancelled
        refine ⟨past, s, heir, [], rfl, before, fun d member mine => ⟨older d member mine, ?_⟩⟩
        subst mine
        rintro (holds | ⟨⟨item, holding⟩, -⟩)
        · rw [popping] at holds
          cases holds
        · exact notHolding item holding

end Pool

end Cfutures
