import Mathlib.Data.Multiset.Count
import Libparc.Algol.SortedList

/-! # parc_ScheduledThreadPool

The work queue is a sorted list of tasks under `parcObject_Compare`, which
resolves to `parcScheduledTask_Compare`. That comparison is always zero, so a new
task is put in the middle of the queue whatever its execution time is; the queue stays in
order where this is the middle of the times, too. Schedule,
Submit and a turn of the worker are the steps of the pool; the calls that a turn
makes of the thread pool it hands tasks to are left out. -/
namespace Libparc.ScheduledThreadPool
open LinkedList SortedList Exec List

variable {τ : Type}

/-- `struct PARCScheduledTask`. -/
structure PARCScheduledTask (τ : Type) where
  task : τ
  executionTime : UInt64
  deriving DecidableEq

def parcScheduledTaskCompare (_ _ : PARCScheduledTask τ) : Int := 0

/-- A pool, as far as its queue goes. -/
structure PARCScheduledThreadPool (τ : Type) where
  workQueue : PARCSortedList (PARCScheduledTask τ)

def parcScheduledThreadPoolCreate : PARCScheduledThreadPool τ :=
  ⟨parcSortedListCreateCompare parcScheduledTaskCompare⟩

/-- A timeout that is NULL never comes. -/
def parcTimeoutInNanoSeconds (timeout : Option UInt64) : UInt64 := timeout.getD (-1)

section
variable (A : Allocator) (pool : PARCScheduledThreadPool τ)

def parcScheduledThreadPoolSchedule (now : UInt64) (task : τ)
    (delay : Option UInt64) : Prog (PARCScheduledThreadPool τ) := do
  let executionTime := now + parcTimeoutInNanoSeconds delay
  pure ⟨← parcSortedListAdd A pool.workQueue ⟨task, executionTime⟩⟩

def parcScheduledThreadPoolSubmit (task : τ) : Prog (PARCScheduledThreadPool τ) := do
  pure ⟨← parcSortedListAdd A pool.workQueue ⟨task, 0⟩⟩

/-- The delay as an `int64_t`. -/
def executionDelay (task : PARCScheduledTask τ) (now : UInt64) : Int :=
  (task.executionTime - now).toBitVec.toInt

/-- What the worker does in a turn. -/
inductive Action (τ : Type) where
  | execute (task : τ)
  | waitFor (delay : Int)
  | wait
  deriving DecidableEq

/-- A turn of the loop of `_workerThread`, with the lock held. -/
def workerThread (now : UInt64) : Prog (Action τ × PARCScheduledThreadPool τ) :=
  if parcSortedListSize pool.workQueue > 0 then do
    match ← parcSortedListGetFirst pool.workQueue with
    | none => throw .memoryFault
    | some task =>
      if executionDelay task now ≤ 0 then do
        let (_, workQueue) ← parcSortedListRemoveFirst pool.workQueue
        pure (.execute task.task, ⟨workQueue⟩)
      else pure (.waitFor (executionDelay task now), pool)
  else pure (.wait, pool)

inductive Event (τ : Type) where
  | schedule (now : UInt64) (task : τ) (delay : Option UInt64)
  | submit (task : τ)
  | worker (now : UInt64)

def Event.run : Event τ → Prog (PARCScheduledThreadPool τ)
  | .schedule now task delay => parcScheduledThreadPoolSchedule A pool now task delay
  | .submit task => parcScheduledThreadPoolSubmit A pool task
  | .worker now => do pure (← workerThread pool now).2

end

/-! ## The queue -/

/-- The first task of a queue has the smallest execution time. -/
def HeadFirst (queue : List (PARCScheduledTask τ)) : Prop :=
  ∀ first ∈ queue.head?, ∀ task ∈ queue, first.executionTime ≤ task.executionTime

/-- The head of the pool's queue has the smallest execution time, and the worker
does not sleep while a task is due; the clock is taken to be below 2 ^ 63 ns. -/
structure Punctual (pool : PARCScheduledThreadPool τ) : Prop where
  head : ∀ nodes, walkForward pool.workQueue.list = pure nodes → HeadFirst (nodes.map Prod.snd)
  awake : ∀ nodes now delay pool', walkForward pool.workQueue.list = pure nodes →
    now.toNat < 2 ^ 63 → workerThread pool now = pure (.waitFor delay, pool') →
    ∀ node ∈ nodes, now < node.2.executionTime

/-- Every event of a run returns, and leaves the queue so. -/
def AlwaysPunctual (A : Allocator) : PARCScheduledThreadPool τ → List (Event τ) → Prop
  | _, [] => True
  | pool, event :: events =>
    ∃ pool', event.run A pool = pure pool' ∧ Punctual pool' ∧ AlwaysPunctual A pool' events

/-- A task is put before the middle. -/
def insertTask (task : PARCScheduledTask τ) (queue : List (PARCScheduledTask τ)) :
    List (PARCScheduledTask τ) :=
  queue.take ((queue.length - 1) / 2) ++ task :: queue.drop ((queue.length - 1) / 2)

/-- The queue after an event. -/
def Event.apply (queue : List (PARCScheduledTask τ)) : Event τ → List (PARCScheduledTask τ)
  | .schedule now task delay => insertTask ⟨task, now + parcTimeoutInNanoSeconds delay⟩ queue
  | .submit task => insertTask ⟨task, 0⟩ queue
  | .worker now =>
    match queue with
    | [] => []
    | task :: rest => if executionDelay task now ≤ 0 then rest else task :: rest

/-! ## Times that are in order -/

/-- Of the `n` tasks that wait, `(n - 1) / 2` at least are not later than the time of a new
one, and the number of those that are not earlier is that of the rest at least. -/
def InMiddle (executionTime : UInt64) (waiting : Multiset (PARCScheduledTask τ)) : Prop :=
  (waiting.card - 1) / 2 ≤ waiting.countP (·.executionTime ≤ executionTime) ∧
    waiting.card - (waiting.card - 1) / 2 ≤ waiting.countP (executionTime ≤ ·.executionTime)

def Event.InMiddle (waiting : Multiset (PARCScheduledTask τ)) : Event τ → Prop
  | .schedule now _ delay =>
    ScheduledThreadPool.InMiddle (now + parcTimeoutInNanoSeconds delay) waiting
  | .submit _ => ScheduledThreadPool.InMiddle 0 waiting
  | .worker _ => True

/-- Which tasks wait after an event: the worker takes one with the smallest execution time,
if it is due. -/
def Event.Leaves (waiting : Multiset (PARCScheduledTask τ)) :
    Event τ → Multiset (PARCScheduledTask τ) → Prop
  | .schedule now task delay, waiting' =>
    waiting' = ⟨task, now + parcTimeoutInNanoSeconds delay⟩ ::ₘ waiting
  | .submit task, waiting' => waiting' = ⟨task, 0⟩ ::ₘ waiting
  | .worker now, waiting' =>
    (waiting = 0 ∧ waiting' = 0) ∨ ∃ first ∈ waiting,
      (∀ task ∈ waiting, first.executionTime ≤ task.executionTime) ∧
      if executionDelay first now ≤ 0 then waiting = first ::ₘ waiting' else waiting' = waiting

/-- The execution time of every task that is added to a run is in the middle of the times of
those that wait then. -/
def AddedInMiddle : Multiset (PARCScheduledTask τ) → List (Event τ) → Prop
  | _, [] => True
  | waiting, event :: events =>
    event.InMiddle waiting ∧ ∀ waiting', event.Leaves waiting waiting' →
      AddedInMiddle waiting' events

/-! ## One event -/

section
variable {A : Allocator} {pool : PARCScheduledThreadPool τ} {queue : List (PARCScheduledTask τ)}

/-- The next and previous links, the head and the size of the pool's queue are those of
these tasks. Its tail need not be the last of them. -/
def Queued (pool : PARCScheduledThreadPool τ) (queue : List (PARCScheduledTask τ)) : Prop :=
  pool.workQueue.compare = parcScheduledTaskCompare ∧
    ∃ xs, Threaded pool.workQueue.list xs ∧ xs.map Prod.snd = queue

theorem Queued.create : Queued (parcScheduledThreadPoolCreate : PARCScheduledThreadPool τ) [] :=
  ⟨rfl, [], Threaded.create, rfl⟩

theorem Queued.add (h : Queued pool queue) (task : PARCScheduledTask τ) :
    ∃ wq, parcSortedListAdd A pool.workQueue task = pure wq ∧
      Queued ⟨wq⟩ (insertTask task queue) := by
  obtain ⟨hc, xs, hxs, rfl⟩ := h
  have hi := getInsertionIndex_of_zero hxs (fun a b => by rw [hc]; rfl) task
  have hin : (xs.length - 1) / 2 < xs.length ∨ (xs.length - 1) / 2 = 0 := by omega
  obtain ⟨list, q, hr, ht, -⟩ := insertAtIndex_take (A := A) hxs hin task
  refine ⟨{ pool.workQueue with list }, ?_, hc, _, ht, ?_⟩
  · rw [add_eq A hxs hi (by omega), hr, pure_bind]
  · rw [insertTask, map_append, map_cons, map_take, map_drop, length_map]

theorem Queued.worker (h : Queued pool queue) (now : UInt64) :
    ∃ action pool', workerThread pool now = pure (action, pool') ∧
      Queued pool' ((Event.worker now).apply queue) ∧
      ∀ delay, action = .waitFor delay → ∀ first ∈ queue.head?, 0 < executionDelay first now := by
  obtain ⟨hc, xs, hxs, rfl⟩ := h
  unfold workerThread parcSortedListSize parcLinkedListSize
  rw [hxs.size]
  cases xs with
  | nil => exact ⟨.wait, pool, rfl, ⟨hc, [], hxs, rfl⟩, fun _ h => by cases h⟩
  | cons x xs =>
    have hp : (x :: xs).length > 0 := Nat.succ_pos _
    rw [if_pos hp, parcSortedListGetFirst, getAtIndex_eq hxs hp, pure_bind]
    dsimp only [getElem_cons_zero]
    by_cases hd : executionDelay x.2 now ≤ 0
    · obtain ⟨list, hr, ht, -⟩ := removeFirst_eq hxs
      refine ⟨.execute x.2.task, ⟨{ pool.workQueue with list }⟩, ?_,
        ⟨hc, xs, ht, ?_⟩, fun _ h => by cases h⟩
      · rw [if_pos hd, parcSortedListRemoveFirst, hr]
        rfl
      · exact (if_pos hd).symm
    · refine ⟨_, pool, if_neg hd, ⟨hc, x :: xs, hxs, (if_neg hd).symm⟩, ?_⟩
      intro delay _ first hf
      cases hf
      exact Int.not_le.mp hd

/-- The tasks of a queue are in the order of their execution times. -/
def InOrder (queue : List (PARCScheduledTask τ)) : Prop :=
  queue.Pairwise fun first task => first.executionTime ≤ task.executionTime

section
variable {xs ys : List (PARCScheduledTask τ)} (h : InOrder (xs ++ ys)) (time : UInt64)
include h

/-- If as many tasks of a queue in order are not later than a time, the first ones are so. -/
theorem InOrder.before (hc : xs.length ≤ (xs ++ ys).countP (·.executionTime ≤ time)) :
    ∀ x ∈ xs, x.executionTime ≤ time := by
  intro x hx
  by_contra hn
  obtain ⟨l, r, rfl⟩ := append_of_mem hx
  rw [InOrder, append_assoc, cons_append] at h
  have hz : (x :: (r ++ ys)).countP (·.executionTime ≤ time) = 0 := by
    refine countP_eq_zero.mpr fun y hy => ?_
    rw [decide_eq_true_eq]
    rcases mem_cons.mp hy with rfl | hy
    · exact hn
    · have hxy := (pairwise_cons.mp (pairwise_append.mp h).2.1).1 y hy
      exact fun hle => hn (UInt64.le_trans hxy hle)
  have hl : l.countP (·.executionTime ≤ time) ≤ l.length := countP_le_length
  rw [append_assoc, cons_append, countP_append, hz, length_append, length_cons] at hc
  omega

theorem InOrder.after (hc : ys.length ≤ (xs ++ ys).countP (time ≤ ·.executionTime)) :
    ∀ y ∈ ys, time ≤ y.executionTime := by
  intro y hy
  by_contra hn
  obtain ⟨l, r, rfl⟩ := append_of_mem hy
  rw [append_cons, InOrder, ← append_assoc] at h
  have hz : (xs ++ (l ++ [y])).countP (time ≤ ·.executionTime) = 0 := by
    refine countP_eq_zero.mpr fun x hx => ?_
    rw [decide_eq_true_eq]
    rw [← append_assoc] at hx h
    rcases mem_append.mp hx with hx | hx
    · have hxy := (pairwise_append.mp (pairwise_append.mp h).1).2.2 x hx y (.head _)
      exact fun hle => hn (UInt64.le_trans hle hxy)
    · rwa [mem_singleton.mp hx]
  have hr : r.countP (time ≤ ·.executionTime) ≤ r.length := countP_le_length
  rw [append_cons, ← append_assoc, countP_append, hz, length_append, length_append,
    length_cons] at hc
  omega

end

/-- **A time in the middle** of those of a queue in order is in order there. -/
theorem InOrder.insertTask (h : InOrder queue) {task : PARCScheduledTask τ}
    (ht : InMiddle task.executionTime (queue : Multiset (PARCScheduledTask τ))) :
    InOrder (insertTask task queue) := by
  obtain ⟨hl, hr⟩ := ht
  rw [Multiset.coe_card, Multiset.coe_countP] at hl hr
  rw [ScheduledThreadPool.insertTask]
  generalize (queue.length - 1) / 2 = k at hl hr ⊢
  have hle := length_take_le k queue
  rw [← length_drop] at hr
  rw [← take_append_drop k queue] at h
  obtain ⟨hxs, hys, hxy⟩ := pairwise_append.mp h
  have hbefore := h.before task.executionTime (by rw [take_append_drop]; omega)
  have hafter := h.after task.executionTime (by rwa [take_append_drop])
  refine pairwise_append.mpr ⟨hxs, pairwise_cons.mpr ⟨hafter, hys⟩, fun x hx y hy => ?_⟩
  rcases mem_cons.mp hy with rfl | hy
  · exact hbefore x hx
  · exact hxy x hx y hy

theorem InOrder.headFirst (h : InOrder queue) : HeadFirst queue := by
  intro first hf task ht
  cases queue with
  | nil => cases hf
  | cons x queue =>
    cases hf
    rcases mem_cons.mp ht with rfl | ht
    · exact UInt64.le_refl _
    · exact (pairwise_cons.mp h).1 task ht

theorem coe_insertTask (task : PARCScheduledTask τ) :
    (insertTask task queue : Multiset (PARCScheduledTask τ)) = task ::ₘ queue := by
  conv => rhs; rw [← take_append_drop ((queue.length - 1) / 2) queue]
  exact Multiset.coe_eq_coe.mpr perm_middle

theorem InOrder.apply (h : InOrder queue) {event : Event τ} (he : event.InMiddle queue) :
    InOrder (event.apply queue) ∧ event.Leaves queue (event.apply queue) := by
  cases event with
  | schedule now task delay | submit task => exact ⟨h.insertTask he, coe_insertTask _⟩
  | worker now =>
    cases queue with
    | nil => exact ⟨h, .inl ⟨rfl, rfl⟩⟩
    | cons first rest =>
      have hl := h.headFirst first rfl
      rw [Event.apply]
      split
      · rename_i hd
        refine ⟨(pairwise_cons.mp h).2, .inr ⟨first, mem_cons_self, hl, ?_⟩⟩
        rw [if_pos hd]
        rfl
      · rename_i hd
        exact ⟨h, .inr ⟨first, mem_cons_self, hl, by rw [if_neg hd]⟩⟩

theorem Event.run_eq (h : Queued pool queue) (event : Event τ) :
    ∃ pool', event.run A pool = pure pool' ∧ Queued pool' (event.apply queue) := by
  cases event with
  | schedule now task delay =>
    obtain ⟨wq, hr, ha⟩ := h.add ⟨task, now + parcTimeoutInNanoSeconds delay⟩
    exact ⟨⟨wq⟩, by rw [Event.run, parcScheduledThreadPoolSchedule, hr, pure_bind], ha⟩
  | submit task =>
    obtain ⟨wq, hr, ha⟩ := h.add ⟨task, 0⟩
    exact ⟨⟨wq⟩, by rw [Event.run, parcScheduledThreadPoolSubmit, hr, pure_bind], ha⟩
  | worker now =>
    obtain ⟨action, pool', hr, hq, -⟩ := h.worker now
    exact ⟨pool', by rw [Event.run, hr, pure_bind], hq⟩

theorem lt_of_executionDelay {task : PARCScheduledTask τ} {now}
    (hd : 0 < executionDelay task now) (hn : now.toNat < 2 ^ 63) : now < task.executionTime := by
  unfold executionDelay at hd
  rw [BitVec.toInt_eq_toNat_cond, UInt64.toNat_toBitVec, UInt64.toNat_sub] at hd
  rw [UInt64.lt_iff_toNat_lt]
  omega

theorem Queued.punctual (h : Queued pool queue) (hh : HeadFirst queue) : Punctual pool := by
  have hw := h.worker
  obtain ⟨-, xs, hxs, rfl⟩ := h
  have hwa := walkForward_eq hxs
  refine ⟨fun ns hn => ?_, fun ns now delay pool' hn hno hr node hnd => ?_⟩
  · rw [hwa, pure_inj] at hn
    exact hn ▸ hh
  · rw [hwa, pure_inj] at hn
    subst hn
    obtain ⟨action, pool'', hr', -, hpo⟩ := hw now
    rw [hr, pure_inj, Prod.mk.injEq] at hr'
    cases xs with
    | nil => cases hnd
    | cons x xs =>
      have hlt := lt_of_executionDelay (hpo delay hr'.1.symm x.2 rfl) hno
      exact UInt64.lt_of_lt_of_le hlt (hh x.2 rfl node.2 (mem_map_of_mem hnd))

theorem Queued.alwaysPunctual (h : Queued pool queue) (ho : InOrder queue) {events}
    (he : AddedInMiddle (queue : Multiset (PARCScheduledTask τ)) events) :
    AlwaysPunctual A pool events := by
  induction events generalizing pool queue with
  | nil => trivial
  | cons event events ih =>
    obtain ⟨hev, he⟩ := he
    obtain ⟨ho', hl⟩ := ho.apply hev
    obtain ⟨pool', hr, hq⟩ := event.run_eq h (A := A)
    exact ⟨pool', hr, hq.punctual ho'.headFirst, ih hq ho' (he _ hl)⟩

end

/-- **The head of the work queue has the smallest execution time** after every event of a
run, and the worker does not sleep while a task is due, if the time of each task that is
added is in the middle of those that wait. -/
theorem events_punctual (A : Allocator) {events : List (Event τ)}
    (hevents : AddedInMiddle 0 events) : AlwaysPunctual A parcScheduledThreadPoolCreate events :=
  Queued.create.alwaysPunctual .nil hevents

/-- Three tasks, each in time before the one that was added before it, and the worker. -/
theorem events_punctual_descending : AlwaysPunctual Allocator.bump
    (parcScheduledThreadPoolCreate : PARCScheduledThreadPool Nat)
    [.schedule 5 1 (some 30), .schedule 6 2 (some 20), .submit 3, .worker 7] := by
  refine events_punctual _ ⟨⟨by decide, by decide⟩, ?_⟩
  rintro _ rfl
  refine ⟨⟨by decide, by decide⟩, ?_⟩
  rintro _ rfl
  exact ⟨⟨by decide, by decide⟩, fun _ _ => ⟨trivial, fun _ _ => trivial⟩⟩

/-- A task in one second and one in ten: the worker sleeps for the second one
when the first is due. -/
theorem worker_sleeps_for_later :
    ∃ pool pool' : PARCScheduledThreadPool String, (do
        let pool ← parcScheduledThreadPoolSchedule Allocator.bump parcScheduledThreadPoolCreate
          5000000000 "first" (some 1000000000)
        parcScheduledThreadPoolSchedule Allocator.bump pool 5000000000 "second"
          (some 10000000000) : Prog (PARCScheduledThreadPool String)) = pure pool ∧
      walkForward pool.workQueue.list =
        pure [(2, ⟨"second", 15000000000⟩), (1, ⟨"first", 6000000000⟩)] ∧
      workerThread pool 7000000000 = pure (.waitFor 8000000000, pool') := by
  refine ⟨_, _, bind_eq_pure.mpr ⟨_, rfl, bind_eq_pure.mpr
    ⟨_, bind_eq_pure.mpr ⟨0, loop_done rfl, rfl⟩, rfl⟩⟩, ?_, rfl⟩
  exact (loop_next rfl).trans ((loop_next rfl).trans (loop_done rfl))

end Libparc.ScheduledThreadPool
