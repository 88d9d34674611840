/-
# Pool.Creation -- `future_pool_new` when `pthread_create` may fail

`executor_new` does not look at what `pthread_create` returns.  For a pattern
`created` of its results, `futurePoolCreate created` is the pool that
`future_pool_new` returns: one executor for each call, linked whether its thread
was started or not, with a `thread` that nobody has written when it was not.
`destroyExecutors` is the loop of `future_pool_destroy` on such a pool; it cancels
whatever `thread` holds.

With every thread created this is the pool of `Pool.Basic` (`futurePoolCreate_all`),
and only then is every linked executor a worker (`noPhantoms_iff`).
-/
import Cfutures.Pool.Basic

namespace Cfutures

open Cfutures.Theory

set_option autoImplicit false

variable {n : Nat} (created : Fin n → Bool)

/-- What the call for `w` leaves in `*thread`: POSIX says nothing if it failed. -/
def pthreadCreate (w : Fin n) : Option (Fin n) := if created w then some w else none

/-- One turn of the loop of `future_pool_new`. -/
def futurePoolCreateAdd (pool : Ptr × Store Addr (Executor n)) (w : Fin n) :
    Ptr × Store Addr (Executor n) :=
  (some w.val, pool.2.put w.val (executorSetNext (executorNew (pthreadCreate created w)) pool.1))

/-- `future_pool_new`: the executors it links. -/
def futurePoolCreate : Ptr × Store Addr (Executor n) :=
  (List.finRange n).foldl (futurePoolCreateAdd created) (none, Store.empty)

theorem futurePoolCreate_all : futurePoolCreate (fun _ : Fin n => true) = futurePoolNew n := rfl

/-! ## The list it builds -/

/-- The pool's list has the executors of `ws`, the latest first. -/
structure ListsExecutors (pool : Ptr × Store Addr (Executor n)) (ws : List (Fin n)) : Prop where
  chain : Chain Executor.next pool.2 pool.1 (ws.reverse.map Fin.val)
  thread : ∀ w ∈ ws, ∃ executor, pool.2 w.val = some executor ∧
    executor.thread = pthreadCreate created w
  only : ∀ e, pool.2 e ≠ none → ∃ w ∈ ws, w.val = e

variable {created}

theorem ListsExecutors.add {pool : Ptr × Store Addr (Executor n)} {ws : List (Fin n)} {w : Fin n}
    (lists : ListsExecutors created pool ws) (fresh : w ∉ ws) :
    ListsExecutors created (futurePoolCreateAdd created pool w) (ws ++ [w]) where
  chain := by
    rw [List.reverse_append, List.reverse_singleton, List.singleton_append, List.map_cons]
    refine ⟨rfl, _, Store.put_same .., lists.chain.congr_of_eq ?_⟩
    intro a member
    obtain ⟨v, among, rfl⟩ := List.mem_map.1 member
    exact Store.put_ne _ _ fun same => fresh (Fin.ext same ▸ List.mem_reverse.1 among)
  thread v among := by
    rcases List.mem_append.1 among with before | here
    · obtain ⟨executor, present, thread⟩ := lists.thread v before
      have ne : v.val ≠ w.val := fun same => fresh (Fin.ext same ▸ before)
      exact ⟨executor, (Store.put_ne _ _ ne).trans present, thread⟩
    · obtain rfl := List.mem_singleton.1 here
      exact ⟨_, Store.put_same .., rfl⟩
  only e present := by
    by_cases same : e = w.val
    · exact ⟨w, by simp, same.symm⟩
    · have earlier : pool.2 e ≠ none := by
        simpa [futurePoolCreateAdd, Store.put_ne _ _ same] using present
      obtain ⟨v, among, val⟩ := lists.only e earlier
      exact ⟨v, List.mem_append_left _ among, val⟩

theorem ListsExecutors.addAll (more : List (Fin n)) {pool : Ptr × Store Addr (Executor n)}
    {ws : List (Fin n)} (lists : ListsExecutors created pool ws) (distinct : (ws ++ more).Nodup) :
    ListsExecutors created (more.foldl (futurePoolCreateAdd created) pool) (ws ++ more) := by
  induction more generalizing pool ws with
  | nil => simpa using lists
  | cons w more ih =>
      rw [List.append_cons] at distinct ⊢
      have fresh : w ∉ ws := by
        have early := (List.nodup_append.1 distinct).1
        simp only [List.nodup_append] at early
        exact fun member => early.2.2 w member w (by simp) rfl
      exact ih (lists.add fresh) distinct

/-- Every call of `pthread_create` has its executor, whatever it returned. -/
theorem futurePoolCreate_lists (created : Fin n → Bool) :
    ListsExecutors created (futurePoolCreate created) (List.finRange n) := by
  have empty : ListsExecutors created (none, Store.empty) [] := ⟨rfl, by simp, by simp⟩
  simpa [futurePoolCreate] using
    empty.addAll (List.finRange n) (by simpa using List.nodup_finRange n)

/-! ## Its teardown -/

/-- A call of `pthread_cancel` or `pthread_join` on a thread that was started. -/
inductive ThreadCall (n : Nat) where
  | cancel (thread : Fin n)
  | join (thread : Fin n)
  deriving DecidableEq

/-- How the loop of `future_pool_destroy` ends: with the calls it has made, at a
released record, or at a `pthread_cancel` of a thread that was never started. -/
inductive TeardownEnd (n : Nat) where
  | done (calls : List (ThreadCall n))
  | readsReleased (executor : Addr)
  | cancelsUnstarted (executor : Addr)
  deriving DecidableEq

/-- The loop of `future_pool_destroy`, with `executor_destroy` inlined; `none` when
`turns` were not enough. -/
def destroyExecutors : Nat → Store Addr (Executor n) → Ptr → List (ThreadCall n) →
    Option (TeardownEnd n)
  | _, _, none, calls => some (.done calls)
  | 0, _, some _, _ => none
  | turns + 1, records, some tofree, calls =>
      match records tofree with
      | none => some (.readsReleased tofree)
      | some executor =>
          match executor.thread with
          | none => some (.cancelsUnstarted tofree)
          | some w =>
              destroyExecutors turns (records.free tofree) executor.next
                (calls ++ [.cancel w, .join w])

/-- `executor_destroy` of each of `ws`, in order. -/
def destroyCalls (ws : List (Fin n)) : List (ThreadCall n) :=
  ws.flatMap fun w => [.cancel w, .join w]

theorem destroyExecutors_started {records : Store Addr (Executor n)} {p : Ptr} {ws : List (Fin n)}
    (chain : Chain Executor.next records p (ws.map Fin.val))
    (started : ∀ w ∈ ws, ∃ executor, records w.val = some executor ∧ executor.thread = some w)
    (calls : List (ThreadCall n)) :
    destroyExecutors ws.length records p calls = some (.done (calls ++ destroyCalls ws)) := by
  induction ws generalizing records p calls with
  | nil =>
      obtain rfl : p = none := chain
      simp [destroyExecutors, destroyCalls]
  | cons w ws ih =>
      have notLater : w.val ∉ ws.map Fin.val := (List.nodup_cons.1 chain.nodup).1
      have ne : ∀ v ∈ ws, v.val ≠ w.val := fun v member same =>
        notLater (same ▸ List.mem_map_of_mem member)
      obtain ⟨rfl, executor, present, onward⟩ := chain
      obtain ⟨executor', present', thread⟩ := started w (List.mem_cons_self ..)
      rw [present] at present'
      cases present'
      have rest : Chain Executor.next (records.free w.val) executor.next (ws.map Fin.val) := by
        refine onward.congr_of_eq ?_
        intro a member
        obtain ⟨v, among, rfl⟩ := List.mem_map.1 member
        exact Store.free_ne _ (ne v among)
      have started' : ∀ v ∈ ws, ∃ executor, records.free w.val v.val = some executor ∧
          executor.thread = some v := by
        intro v among
        obtain ⟨x, here, isThread⟩ := started v (List.mem_cons_of_mem _ among)
        exact ⟨x, (Store.free_ne _ (ne v among)).trans here, isThread⟩
      simp only [List.length_cons, destroyExecutors, present, thread, ih rest started']
      simp [destroyCalls]

theorem count_destroyCalls {ws : List (Fin n)} (distinct : ws.Nodup) (w : Fin n) :
    (destroyCalls ws).count (.cancel w) = (if w ∈ ws then 1 else 0) ∧
      (destroyCalls ws).count (.join w) = if w ∈ ws then 1 else 0 := by
  induction ws with
  | nil => simp [destroyCalls]
  | cons v ws ih =>
      obtain ⟨notLater, distinct⟩ := List.nodup_cons.1 distinct
      obtain ⟨cancels, joins⟩ := ih distinct
      simp only [destroyCalls, List.flatMap_cons, List.count_append] at cancels joins ⊢
      rw [cancels, joins]
      by_cases same : w = v
      · subst same
        simp [notLater]
      · simp [same, Ne.symm same]

/-! ## Phantoms -/

/-- The pool that `future_pool_new` returns: every executor it links has a thread
that was started, its teardown cancels and joins the started threads, each exactly
once, and nothing else, and there is a worker to run its tasks. -/
structure NoPhantoms (created : Fin n → Bool) : Prop where
  started : ∃ l, Chain Executor.next (futurePoolCreate created).2 (futurePoolCreate created).1 l ∧
    ∀ e ∈ l, ∃ executor w, (futurePoolCreate created).2 e = some executor ∧
      executor.thread = some w ∧ created w = true
  tornDown : ∃ turns calls,
    destroyExecutors turns (futurePoolCreate created).2 (futurePoolCreate created).1 [] =
        some (.done calls) ∧
      ∀ w, calls.count (.cancel w) = (if created w then 1 else 0) ∧
        calls.count (.join w) = if created w then 1 else 0
  worker : ∃ w, created w = true

/-- An executor whose thread was not started is linked all the same. -/
theorem NoPhantoms.all_created (noPhantoms : NoPhantoms created) (w : Fin n) :
    created w = true := by
  obtain ⟨l, chain, started⟩ := noPhantoms.started
  have lists := futurePoolCreate_lists created
  obtain rfl := chain.unique lists.chain
  obtain ⟨executor, v, present, thread, -⟩ := started w.val (by simp)
  obtain ⟨executor', present', left⟩ := lists.thread w (List.mem_finRange w)
  rw [present] at present'
  cases present'
  rw [thread, pthreadCreate] at left
  by_contra failed
  simp [failed] at left

/-- **A pool has no phantom worker exactly when all its threads were created.** -/
theorem noPhantoms_iff (workers : 0 < n) (created : Fin n → Bool) :
    NoPhantoms created ↔ ∀ w, created w = true := by
  refine ⟨NoPhantoms.all_created, ?_⟩
  intro all
  have lists := futurePoolCreate_lists created
  have started : ∀ w : Fin n, ∃ executor, (futurePoolCreate created).2 w.val = some executor ∧
      executor.thread = some w := by
    intro w
    obtain ⟨executor, present, thread⟩ := lists.thread w (List.mem_finRange w)
    exact ⟨executor, present, by rw [thread, pthreadCreate, if_pos (all w)]⟩
  refine ⟨⟨_, lists.chain, ?_⟩, ⟨_, _,
    destroyExecutors_started lists.chain (fun w _ => started w) [], ?_⟩,
    ⟨0, workers⟩, all _⟩
  · intro e member
    obtain ⟨w, -, rfl⟩ := List.mem_map.1 member
    obtain ⟨executor, present, thread⟩ := started w
    exact ⟨executor, w, present, thread, all w⟩
  · intro w
    have distinct : (List.finRange n).reverse.Nodup :=
      List.nodup_reverse.2 (List.nodup_finRange n)
    simpa [all w] using count_destroyCalls distinct w

/-- Four workers, as in the tests. -/
theorem noPhantoms_four : NoPhantoms (fun _ : Fin 4 => true) :=
  (noPhantoms_iff (by decide) _).2 fun _ => rfl

/-- The one thread of a pool is not created: its executor is linked, and the teardown
cancels a thread that there never was. -/
theorem phantom_linked :
    (futurePoolCreate fun _ : Fin 1 => false).1 = some 0 ∧
      destroyExecutors 1 (futurePoolCreate fun _ : Fin 1 => false).2 (some 0) [] =
        some (.cancelsUnstarted 0) ∧
      ¬ NoPhantoms fun _ : Fin 1 => false :=
  ⟨rfl, rfl, fun noPhantoms => Bool.false_ne_true (noPhantoms.all_created 0)⟩

end Cfutures
