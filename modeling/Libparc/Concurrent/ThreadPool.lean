import Mathlib.Algebra.BigOperators.Group.Finset.Piecewise
import Mathlib.Data.Fintype.Basic
import Mathlib.Tactic.Abel
import Libparc.Runtime
import Libparc.Transition

/-! # parc_ThreadPool

The workers of a pool take tasks from its queue and run them, while any number of
client threads call Execute, Shutdown and AwaitTermination. What a thread does while
it holds the lock of the pool, or of the queue, is one step: all that the step reads
and writes is guarded by that lock. Every other read or write of a flag is a step of
its own, as are the run of a task and each turn of the loops of ShutdownNow.

`joined` is what the threads know: for which workers `pthread_join` was called. A second
call for one of them is undefined; here, as in practice, it fails at once, and the code
does not look at what it returns. `accepted`, `ran` and `drained` are not part of the
program: the tasks that Execute took, the tasks that were run, and whether a call of
AwaitTermination has found the queue empty. -/
namespace Libparc.ThreadPool
open Transition Function Finset

variable {n : Nat} {κ τ : Type}

/-- Where a worker is in `_parcThreadPool_Worker`: at the two tests of its loop, at the
lock of the queue to take a task, at the task, at the lock to notify, asleep for up to
a second, woken up and in need of the lock, or at its end. -/
inductive Worker (τ : Type) where
  | testing
  | testingTerminated
  | taking
  | running (task : τ)
  | notifying
  | asleep
  | woken
  | exited

/-- What a client's last call returned. -/
inductive Returned where
  | nothing
  | execute (result : Bool)
  | shutdown
  | awaitTermination (result : Bool)

/-- Where a client is: outside; in Execute, at the lock of the pool and then of the
queue; in Shutdown; in AwaitTermination, at its test, at the lock of the queue, asleep
and woken up; and in the ShutdownNow at the end of it, where it calls `pthread_join` for
one worker after the other and waits in it. -/
inductive Client (τ : Type) where
  | out (returned : Returned)
  | executing (task : τ)
  | appending (task : τ)
  | shuttingDown
  | awaiting (timeout : PARCTimeout)
  | draining (timeout : PARCTimeout)
  | asleep (timeout : PARCTimeout)
  | woken (timeout : PARCTimeout)
  | closing
  | cancelling (k : Nat)
  | notifyingPool
  | notifyingQueue
  | joining (k : Nat)
  | waiting (k : Nat)
  | terminating

/-- `struct PARCThreadPool` with its threads and its clients. -/
structure PARCThreadPool (n : Nat) (κ τ : Type) where
  workQueue : List τ
  completedTaskCount : BitVec 64
  isShutdown : Bool
  isTerminating : Bool
  isTerminated : Bool
  isCancelled : Fin n → Bool
  workers : Fin n → Worker τ
  clients : κ → Client τ
  joined : Fin n → Bool
  accepted : List τ
  ran : List τ
  drained : Bool

def parcThreadPoolCreate (n : Nat) : PARCThreadPool n κ τ :=
  { workQueue := []
    completedTaskCount := 0
    isShutdown := false
    isTerminating := false
    isTerminated := false
    isCancelled := fun _ => false
    workers := fun _ => .testing
    clients := fun _ => .out .nothing
    joined := fun _ => false
    accepted := []
    ran := []
    drained := false }

section
variable (pool : PARCThreadPool n κ τ)

/-- The flags as Shutdown sets them. -/
def shutdown : PARCThreadPool n κ τ :=
  { pool with isShutdown := true, isTerminating := true }

def setWorker (w : Fin n) (place : Worker τ) :
    PARCThreadPool n κ τ := { pool with workers := Function.update pool.workers w place }

@[simp] theorem setWorker_self (w : Fin n) (place : Worker τ) :
    (setWorker pool w place).workers w = place := update_self ..

/-! ## The condition of the queue -/

/-- A worker after a notification of all. -/
def Worker.wake : Worker τ → Worker τ
  | .asleep => .woken
  | place => place

/-- A client after a notification of all. -/
def Client.wake : Client τ → Client τ
  | .asleep timeout => .woken timeout
  | place => place

def notifyAll : PARCThreadPool n κ τ :=
  { pool with
    workers := fun w => (pool.workers w).wake
    clients := fun c => (pool.clients c).wake }

end

section
variable [DecidableEq κ] (pool : PARCThreadPool n κ τ)

def setClient (c : κ) (place : Client τ) :
    PARCThreadPool n κ τ := { pool with clients := Function.update pool.clients c place }

@[simp] theorem setClient_self (c : κ) (place : Client τ) :
    (setClient pool c place).clients c = place := update_self ..

theorem setClient_of_ne {c d} (h : d ≠ c) (pl : Client τ) :
    (setClient pool c pl).clients d = pool.clients d := update_of_ne h ..

/-- One thread is woken up, if it sleeps. -/
def wake : Fin n ⊕ κ → PARCThreadPool n κ τ
  | .inl w => setWorker pool w (pool.workers w).wake
  | .inr c => setClient pool c (pool.clients c).wake

/-- A notification wakes up one of the threads that sleep. -/
def notify : Option (Fin n ⊕ κ) → PARCThreadPool n κ τ
  | some waiter => wake pool waiter
  | none => pool

/-! ## The threads -/

/-- The next step of a worker. If it notifies, `waiter` is who is woken up. -/
def stepWorker (w : Fin n) (waiter : Option (Fin n ⊕ κ)) : PARCThreadPool n κ τ :=
  match pool.workers w with
  | .testing => setWorker pool w (if pool.isCancelled w then .exited else .testingTerminated)
  | .testingTerminated => setWorker pool w (if pool.isTerminated then .exited else .taking)
  | .taking =>
    match pool.workQueue with
    | task :: workQueue =>
      setWorker { pool with
        workQueue := workQueue
        completedTaskCount := pool.completedTaskCount + 1 } w (.running task)
    | [] => setWorker pool w .asleep
  | .running task => setWorker { pool with ran := pool.ran ++ [task] } w .notifying
  | .notifying => notify (setWorker pool w .testing) waiter
  | .asleep => setWorker pool w .woken
  | .woken => setWorker pool w .testing
  | .exited => pool

/-- `parcLinkedList_Size` in the loop of AwaitTermination, with the lock held. -/
def drain (c : κ) (timeout : PARCTimeout) : PARCThreadPool n κ τ :=
  match pool.workQueue with
  | [] => setClient { pool with drained := true } c .closing
  | _ :: _ => setClient pool c (.asleep timeout)

/-- The next step of a client in a call. A client sleeps without end if its timeout
says so, and a join waits for the end of a worker. -/
def stepClient (c : κ) (waiter : Option (Fin n ⊕ κ)) : PARCThreadPool n κ τ :=
  match pool.clients c with
  | .out _ => pool
  | .executing task =>
    setClient pool c (if pool.isShutdown then .out (.execute false) else .appending task)
  | .appending task =>
    notify (setClient { pool with
      workQueue := pool.workQueue ++ [task]
      accepted := pool.accepted ++ [task] } c (.out (.execute true))) waiter
  | .shuttingDown => setClient (shutdown pool) c (.out .shutdown)
  | .awaiting timeout =>
    setClient pool c
      (if pool.isTerminating then .draining timeout else .out (.awaitTermination false))
  | .draining timeout => drain pool c timeout
  | .asleep timeout => if timeout = .never then pool else setClient pool c (.woken timeout)
  | .woken timeout => drain pool c timeout
  | .closing => setClient (shutdown pool) c (.cancelling 0)
  | .cancelling k =>
    if h : k < n then
      setClient { pool with isCancelled := Function.update pool.isCancelled ⟨k, h⟩ true } c
        (.cancelling (k + 1))
    else setClient pool c .notifyingPool
  -- no thread waits for the pool
  | .notifyingPool => setClient pool c .notifyingQueue
  | .notifyingQueue => setClient (notifyAll pool) c (.joining 0)
  | .joining k =>
    if h : k < n then
      if pool.joined ⟨k, h⟩ then setClient pool c (.joining (k + 1))
      else setClient { pool with joined := Function.update pool.joined ⟨k, h⟩ true } c (.waiting k)
    else setClient pool c .terminating
  | .waiting k =>
    if h : k < n then
      match pool.workers ⟨k, h⟩ with
      | .exited => setClient pool c (.joining (k + 1))
      | _ => pool
    else setClient pool c .terminating
  | .terminating =>
    setClient { pool with isTerminated := true } c (.out (.awaitTermination true))

/-- A call of a client. -/
inductive Request (τ : Type) where
  | execute (task : τ)
  | shutdown
  | awaitTermination (timeout : PARCTimeout)

def Request.place : Request τ → Client τ
  | .execute task => .executing task
  | .shutdown => .shuttingDown
  | .awaitTermination timeout => .awaiting timeout

/-- The next step of a worker or of a client, the call of a client that is outside,
and a thread that wakes up for no reason. -/
inductive Event (n : Nat) (κ τ : Type) where
  | worker (w : Fin n) (waiter : Option (Fin n ⊕ κ))
  | client (c : κ) (waiter : Option (Fin n ⊕ κ))
  | call (c : κ) (request : Request τ)
  | spurious (waiter : Fin n ⊕ κ)

def step : Event n κ τ → PARCThreadPool n κ τ
  | .worker w waiter => stepWorker pool w waiter
  | .client c waiter => stepClient pool c waiter
  | .call c request =>
    match pool.clients c with
    | .out _ => setClient pool c request.place
    | _ => pool
  | .spurious waiter => wake pool waiter

end

/-! ## Every task that was accepted is run -/

/-- The task that a worker has taken and not run. -/
def Worker.held : Worker τ → Multiset τ
  | .running task => {task}
  | _ => 0

/-- A client is past the loop of AwaitTermination, or it has returned true. -/
def Client.Past : Client τ → Prop
  | .closing | .cancelling _ | .notifyingPool | .notifyingQueue | .joining _ | .waiting _
  | .terminating | .out (.awaitTermination true) => True
  | _ => False

/-- How many workers a client has joined. -/
def Client.joined (n : Nat) : Client τ → Nat
  | .joining k | .waiting k => k
  | .terminating | .out (.awaitTermination true) => n
  | _ => 0

/-- The tasks that were accepted first were taken from the queue, and each was counted when
it was taken; those are the tasks that were run and those that the workers hold. -/
def Dispatched (pool : PARCThreadPool n κ τ) : Prop :=
  ∃ taken : List τ, pool.accepted = taken ++ pool.workQueue ∧
    pool.completedTaskCount = taken.length ∧
    (taken : Multiset τ) = ∑ w, (pool.workers w).held + pool.ran

structure Inv (pool : PARCThreadPool n κ τ) : Prop where
  empty : pool.drained = true → pool.workQueue = []
  drained : ∀ c, (pool.clients c).Past → pool.drained = true
  exited : ∀ c (w : Fin n), w < (pool.clients c).joined n → pool.workers w = .exited

theorem inv_create : Inv (parcThreadPoolCreate n : PARCThreadPool n κ τ) where
  empty := nofun
  drained := nofun
  exited _ _ h := absurd h (Nat.not_lt_zero _)

variable {pool : PARCThreadPool n κ τ}

theorem Inv.perm (h : Inv pool) (hd : Dispatched pool) {c}
    (hc : pool.clients c = .out (.awaitTermination true)) : pool.ran.Perm pool.accepted := by
  have hexited (w : Fin n) : pool.workers w = .exited := by
    refine h.exited c w ?_
    rw [hc]
    exact w.isLt
  have he : pool.workQueue = [] := by
    refine h.empty (h.drained c ?_)
    rw [hc]
    trivial
  obtain ⟨taken, ha, -, ht⟩ := hd
  simp only [hexited, Worker.held, sum_const_zero, zero_add] at ht
  rw [ha, he, List.append_nil]
  exact Multiset.coe_eq_coe.mp ht.symm

theorem sum_held_update (workers : Fin n → Worker τ) (w : Fin n) (pl : Worker τ) :
    ∑ v, (update workers w pl v).held = pl.held + ∑ v ∈ univ \ {w}, (workers v).held := by
  rw [← sum_update_of_mem (mem_univ w)]
  exact sum_congr rfl fun v _ => apply_update (fun _ => Worker.held) workers w pl v

theorem sum_held (workers : Fin n → Worker τ) (w : Fin n) :
    ∑ v, (workers v).held = (workers w).held + ∑ v ∈ univ \ {w}, (workers v).held := by
  rw [← sum_held_update, update_eq_self]

/-- A worker goes on with the tasks it had, or with `more`. -/
theorem held_update {workers : Fin n → Worker τ} {w pl} {taken more ran ran' : Multiset τ}
    (h : taken = ∑ v, (workers v).held + ran)
    (hpl : pl.held + ran' = (workers w).held + ran + more) :
    taken + more = ∑ v, (update workers w pl v).held + ran' := by
  rw [h, sum_held workers w, sum_held_update]
  calc (workers w).held + ∑ v ∈ univ \ {w}, (workers v).held + ran + more
      = (workers w).held + ran + more + ∑ v ∈ univ \ {w}, (workers v).held := by abel
    _ = pl.held + ran' + ∑ v ∈ univ \ {w}, (workers v).held := by rw [hpl]
    _ = pl.held + ∑ v ∈ univ \ {w}, (workers v).held + ran' := by abel

theorem Dispatched.worker (h : Dispatched pool) {w pl} {ran : List τ}
    (hpl : pl.held + ran = (pool.workers w).held + pool.ran) :
    Dispatched (setWorker { pool with ran } w pl) := by
  obtain ⟨taken, ha, hc, ht⟩ := h
  exact ⟨taken, ha, hc, (add_zero _).symm.trans (held_update ht (hpl.trans (add_zero _).symm))⟩

section
variable (h : Inv pool)
include h

theorem Inv.worker {w pl} {workQueue ran : List τ} {cnt} (hl : pool.workers w ≠ .exited)
    (hem : pool.workQueue = [] → workQueue = []) :
    Inv (setWorker { pool with workQueue, ran, completedTaskCount := cnt } w pl) where
  empty hdrained := hem (h.empty hdrained)
  drained := h.drained
  exited c v hv := by
    have hexited := h.exited c v hv
    have hne : v ≠ w := fun he => hl (he ▸ hexited)
    exact (update_of_ne hne ..).trans hexited

theorem Inv.setWorker {w pl} (hl : pool.workers w ≠ .exited) :
    Inv (ThreadPool.setWorker pool w pl) :=
  h.worker hl id

theorem Inv.flags (isShutdown isTerminating isTerminated : Bool)
    (isCancelled joined : Fin n → Bool) :
    Inv { pool with
      isShutdown := isShutdown
      isTerminating := isTerminating
      isTerminated := isTerminated
      isCancelled := isCancelled
      joined } := ⟨h.empty, h.drained, h.exited⟩

theorem Inv.drain (he : pool.workQueue = []) :
    Inv { pool with drained := true } := ⟨fun _ => he, fun _ _ => rfl, h.exited⟩

theorem Inv.append (hdrained : pool.drained = false) (task : τ) :
    Inv { pool with
      workQueue := pool.workQueue ++ [task]
      accepted := pool.accepted ++ [task] } where
  empty hdrained' := absurd (hdrained.symm.trans hdrained') Bool.false_ne_true
  drained := h.drained
  exited := h.exited

end

/-! ### Waking up -/

@[simp] theorem Worker.held_wake (pl : Worker τ) : pl.wake.held = pl.held := by
  cases pl <;> rfl

theorem Worker.wake_eq_exited {pl : Worker τ} (h : pl = .exited) : pl.wake = .exited := by
  rw [h]
  rfl

theorem Client.past_wake {pl : Client τ} (h : pl.wake.Past) : pl.Past := by
  cases pl with
  | asleep timeout => cases h
  | _ => exact h

@[simp] theorem Client.joined_wake (pl : Client τ) : pl.wake.joined n = pl.joined n := by
  cases pl <;> rfl

theorem Inv.notifyAll (h : Inv pool) : Inv (ThreadPool.notifyAll pool) where
  empty := h.empty
  drained c hc := h.drained c (Client.past_wake hc)
  exited c w hw := by
    simp only [ThreadPool.notifyAll, Client.joined_wake] at hw
    exact Worker.wake_eq_exited (h.exited c w hw)

section
variable [DecidableEq κ]

theorem Inv.setClient (h : Inv pool) {c} {pl : Client τ} (hp : pl.Past → pool.drained = true)
    (hj : ∀ w : Fin n, w < pl.joined n → pool.workers w = .exited) :
    Inv (ThreadPool.setClient pool c pl) where
  empty := h.empty
  drained := (forall_update_iff pool.clients fun _ pl =>
    pl.Past → pool.drained = true).mpr ⟨hp, fun c _ => h.drained c⟩
  exited := (forall_update_iff pool.clients fun _ pl =>
    ∀ w : Fin n, w < pl.joined n → pool.workers w = .exited).mpr ⟨hj, fun c _ => h.exited c⟩

theorem Inv.setClient_unjoined (h : Inv pool) {c} {pl : Client τ}
    (hp : pl.Past → pool.drained = true) (hj : pl.joined n = 0) :
    Inv (ThreadPool.setClient pool c pl) :=
  h.setClient hp fun _ hw => absurd (hj ▸ hw) (Nat.not_lt_zero _)

theorem Inv.wake (h : Inv pool) (waiter : Fin n ⊕ κ) : Inv (ThreadPool.wake pool waiter) := by
  cases waiter with
  | inl w =>
    cases hw : pool.workers w with
    | exited =>
      have hs : ThreadPool.wake pool (.inl w : Fin n ⊕ κ) = pool := by
        rw [ThreadPool.wake, hw]
        show { pool with workers := update pool.workers w .exited } = pool
        rw [← hw, update_eq_self]
      rw [hs]
      exact h
    | _ => exact h.setWorker (by rw [hw]; exact nofun)
  | inr c =>
    refine h.setClient (fun hp => h.drained c (Client.past_wake hp)) fun w hw => ?_
    rw [Client.joined_wake] at hw
    exact h.exited c w hw

theorem Inv.notify (h : Inv pool) (w : Option (Fin n ⊕ κ)) : Inv (ThreadPool.notify pool w) := by
  cases w with
  | none => exact h
  | some w => exact h.wake w

/-! ### The steps of the threads -/

theorem Inv.stepWorker (h : Inv pool) (w : Fin n) (waiter : Option (Fin n ⊕ κ)) :
    Inv (ThreadPool.stepWorker pool w waiter) := by
  have hm {pl : Worker τ} (hl : pool.workers w ≠ .exited) :
      Inv (ThreadPool.setWorker pool w pl) := h.setWorker hl
  unfold ThreadPool.stepWorker
  cases hw : pool.workers w with
  | taking =>
    cases hq : pool.workQueue with
    | nil => exact hm (by rw [hw]; exact nofun)
    | cons task wq =>
      exact h.worker (by rw [hw]; exact nofun) (fun hn => by rw [hq] at hn; cases hn)
  | running task => exact h.worker (by rw [hw]; exact nofun) id
  | notifying => exact (hm (by rw [hw]; exact nofun)).notify waiter
  | exited => exact h
  | _ => exact hm (by rw [hw]; exact nofun)

theorem Inv.drain_step (h : Inv pool) (c : κ) (timeout : PARCTimeout) :
    Inv (ThreadPool.drain pool c timeout) := by
  unfold ThreadPool.drain
  split
  · rename_i he
    exact (h.drain he).setClient_unjoined (fun _ => rfl) rfl
  · exact h.setClient_unjoined nofun rfl

/-- No call of Execute appends its task after a call of AwaitTermination has found the
queue empty. -/
def Safe (pool : PARCThreadPool n κ τ) : Event n κ τ → Prop
  | .client c _ => ∀ task, pool.clients c = .appending task → pool.drained = false
  | _ => True

/-- No worker is joined a second time. -/
def JoinsOnce (pool : PARCThreadPool n κ τ) : Event n κ τ → Prop
  | .client c _ => ∀ k (h : k < n), pool.clients c = .joining k → pool.joined ⟨k, h⟩ = false
  | _ => True

theorem Inv.stepClient (h : Inv pool) {c : κ} (waiter : Option (Fin n ⊕ κ))
    (hs : Safe pool (.client c waiter)) (hj : JoinsOnce pool (.client c waiter)) :
    Inv (ThreadPool.stepClient pool c waiter) := by
  have hdrained := h.drained c
  have hexited := h.exited c
  unfold ThreadPool.stepClient
  cases hc : pool.clients c with
  | out returned => exact h
  | executing task =>
    dsimp only
    split
    all_goals exact h.setClient_unjoined nofun rfl
  | appending task =>
    refine Inv.notify ?_ waiter
    exact (h.append (hs task hc) task).setClient_unjoined nofun rfl
  | shuttingDown => exact (h.flags true true _ _ _).setClient_unjoined nofun rfl
  | awaiting timeout =>
    dsimp only
    split
    · exact h.setClient_unjoined nofun rfl
    · exact h.setClient_unjoined (fun hp => hp.elim) rfl
  | draining timeout | woken timeout => exact h.drain_step c timeout
  | asleep timeout =>
    dsimp only
    split
    · exact h
    · exact h.setClient_unjoined nofun rfl
  | closing =>
    rw [hc] at hdrained
    exact (h.flags true true _ _ _).setClient_unjoined (fun _ => hdrained trivial) rfl
  | cancelling k =>
    rw [hc] at hdrained
    dsimp only
    split
    · exact (h.flags _ _ _ _ _).setClient_unjoined (fun _ => hdrained trivial) rfl
    · exact h.setClient_unjoined (fun _ => hdrained trivial) rfl
  | notifyingPool =>
    rw [hc] at hdrained
    exact h.setClient_unjoined (fun _ => hdrained trivial) rfl
  | notifyingQueue =>
    rw [hc] at hdrained
    exact h.notifyAll.setClient_unjoined (fun _ => hdrained trivial) rfl
  | joining k =>
    rw [hc] at hdrained hexited
    dsimp only
    split
    · rename_i hk
      rw [if_neg (Bool.not_eq_true _ ▸ hj k hk hc)]
      exact (h.flags _ _ _ _ _).setClient (fun _ => hdrained trivial) hexited
    · rename_i hk
      refine h.setClient (fun _ => hdrained trivial) fun w hw => hexited w ?_
      exact hw.trans_le (Nat.le_of_not_lt hk)
  | waiting k =>
    rw [hc] at hdrained hexited
    dsimp only
    split
    · rename_i hk
      split
      · rename_i he
        -- the worker that is joined has come to its end
        refine h.setClient (fun _ => hdrained trivial) fun w hw => ?_
        obtain hlt | heq := Nat.lt_succ_iff_lt_or_eq.mp hw
        · exact hexited w hlt
        · rw [show w = ⟨k, hk⟩ from Fin.ext heq]
          exact he
      · exact h
    · rename_i hk
      refine h.setClient (fun _ => hdrained trivial) fun w hw => hexited w ?_
      exact hw.trans_le (Nat.le_of_not_lt hk)
  | terminating =>
    rw [hc] at hdrained hexited
    exact (h.flags _ _ true _ _).setClient (fun _ => hdrained trivial) hexited

theorem Inv.step (h : Inv pool) {e} (hs : Safe pool e) (hj : JoinsOnce pool e) :
    Inv (ThreadPool.step pool e) := by
  cases e with
  | worker w waiter => exact h.stepWorker w waiter
  | client c waiter => exact h.stepClient waiter hs hj
  | call c r =>
    unfold ThreadPool.step
    dsimp only
    split
    · cases r with
      | execute task | shutdown | awaitTermination timeout => exact h.setClient_unjoined nofun rfl
    · exact h
  | spurious waiter => exact h.wake waiter

theorem Dispatched.step (h : Dispatched pool) (e : Event n κ τ) :
    Dispatched (ThreadPool.step pool e) := by
  have hwake {p : PARCThreadPool n κ τ} (hp : Dispatched p) :
      ∀ waiter, Dispatched (ThreadPool.wake p waiter)
    | .inl w => hp.worker (by rw [Worker.held_wake])
    | .inr _ => hp
  have hnotify {p : PARCThreadPool n κ τ} (hp : Dispatched p) :
      ∀ waiter, Dispatched (ThreadPool.notify p waiter)
    | none => hp
    | some waiter => hwake hp waiter
  obtain ⟨taken, ha, hc, ht⟩ := id h
  cases e with
  | worker w waiter =>
    rw [ThreadPool.step, ThreadPool.stepWorker]
    cases hw : pool.workers w with
    | taking =>
      cases hq : pool.workQueue with
      | nil => exact h.worker (by rw [hw]; rfl)
      | cons task workQueue =>
        rw [hq, List.append_cons] at ha
        refine ⟨_, ha, ?_, ?_⟩
        · rw [List.length_append]
          exact (congrArg (· + 1) hc).trans (BitVec.ofNat_add ..).symm
        · rw [← Multiset.coe_add]
          refine held_update ht ?_
          rw [hw]
          show {task} + (pool.ran : Multiset τ) = 0 + pool.ran + {task}
          abel
    | running task =>
      refine h.worker ?_
      rw [hw, ← Multiset.coe_add]
      show 0 + ((pool.ran : Multiset τ) + {task}) = {task} + pool.ran
      abel
    | notifying => exact hnotify (h.worker (by rw [hw]; rfl)) waiter
    | exited => exact h
    | _ =>
      refine h.worker ?_
      rw [hw]
      first | rfl | (split <;> rfl)
  | client c waiter =>
    rw [ThreadPool.step, ThreadPool.stepClient]
    cases pool.clients c with
    | appending task =>
      refine hnotify ?_ waiter
      exact ⟨taken, (congrArg (· ++ [task]) ha).trans (List.append_assoc ..), hc, ht⟩
    | notifyingQueue =>
      refine ⟨taken, ha, hc, ht.trans ?_⟩
      simp only [ThreadPool.setClient, ThreadPool.notifyAll, Worker.held_wake]
    | _ =>
      dsimp only [ThreadPool.drain]
      repeat' split
      all_goals exact h
  | call c request =>
    rw [ThreadPool.step]
    split <;> exact h
  | spurious waiter => exact hwake h waiter

theorem dispatched_run (schedule : List (Event n κ τ)) :
    Dispatched (run step (parcThreadPoolCreate n : PARCThreadPool n κ τ) schedule) := by
  refine run_invariant Dispatched (fun _ e h => h.step e) ⟨[], rfl, rfl, ?_⟩ schedule
  simp [parcThreadPoolCreate, Worker.held]

/-- **In a run whose steps are all safe, and which joins no worker twice, every task that
Execute accepted has been run exactly once when AwaitTermination returns true.** -/
theorem accepted_tasks_ran (schedule : List (Event n κ τ))
    (hsafe : AllSteps step Safe (parcThreadPoolCreate n) schedule)
    (hjoins : AllSteps step JoinsOnce (parcThreadPoolCreate n) schedule) (c : κ)
    (hc : (run step (parcThreadPoolCreate n) schedule).clients c = .out (.awaitTermination true)) :
    (run step (parcThreadPoolCreate n : PARCThreadPool n κ τ) schedule).ran.Perm
      (run step (parcThreadPoolCreate n : PARCThreadPool n κ τ) schedule).accepted :=
  (run_safe Inv (fun _ _ h ⟨hs, hj⟩ => h.step hs hj) inv_create (hsafe.and hjoins)).perm
    (dispatched_run schedule) hc

end

/-- A client has its task run by the only worker, shuts the pool down and waits for its
end. -/
def terminatingSchedule : List (Event 1 Unit Unit) :=
  [.call () (.execute ()), .client () none, .client () none,
    .worker 0 none, .worker 0 none, .worker 0 none, .worker 0 none, .worker 0 none,
    .call () .shutdown, .client () none,
    .call () (.awaitTermination .never), .client () none, .client () none, .client () none,
    .client () none, .client () none, .client () none, .client () none, .worker 0 none,
    .client () none, .client () none, .client () none, .client () none]

theorem joinsOnce_terminatingSchedule :
    AllSteps step JoinsOnce (parcThreadPoolCreate 1) terminatingSchedule := by
  refine ⟨trivial, nofun, nofun, trivial, trivial, trivial, trivial, trivial, trivial, nofun,
    trivial, nofun, nofun, nofun, nofun, nofun, nofun, nofun, trivial, ?_, nofun, ?_, nofun,
    trivial⟩
  · intro k hk _
    rfl
  · intro k hk hc
    cases hc
    exact absurd hk (Nat.lt_irrefl 1)

theorem accepted_tasks_ran_one :
    (run step (parcThreadPoolCreate 1) terminatingSchedule).accepted = [()] ∧
      (run step (parcThreadPoolCreate 1) terminatingSchedule).ran.Perm
        (run step (parcThreadPoolCreate 1) terminatingSchedule).accepted :=
  ⟨rfl, accepted_tasks_ran _
    ⟨trivial, nofun, fun _ _ => rfl, trivial, trivial, trivial, trivial, trivial, trivial, nofun,
      trivial, nofun, nofun, nofun, nofun, nofun, nofun, nofun, trivial, nofun, nofun, nofun,
      nofun, trivial⟩ joinsOnce_terminatingSchedule () rfl⟩

/-- Execute finds that the pool is not shut down, and appends its task when the only
worker has come to its end. It returns true, and AwaitTermination returns true after
it, but the task is in the queue. -/
theorem accepted_task_not_run :
    let executed : PARCThreadPool 1 Bool Unit := run step (parcThreadPoolCreate 1)
      [.call true (.execute ()), .client true none, .call false .shutdown, .client false none,
        .call false (.awaitTermination .never), .client false none, .client false none,
        .client false none, .client false none, .client false none, .client false none,
        .client false none, .worker 0 none, .client true none]
    let terminated := run step executed
      [.client false none, .client false none, .client false none, .client false none]
    executed.clients true = .out (.execute true) ∧ executed.accepted = [()] ∧
      terminated.clients false = .out (.awaitTermination true) ∧ terminated.ran = [] ∧
      terminated.workQueue = [()] :=
  ⟨rfl, rfl, rfl, rfl, rfl⟩

/-- **Tasks are dispatched in the order they were accepted**, in every interleaving. -/
theorem tasks_dispatched [DecidableEq κ] (schedule : List (Event n κ τ)) :
    Dispatched (run step (parcThreadPoolCreate n : PARCThreadPool n κ τ) schedule) :=
  dispatched_run schedule

end Libparc.ThreadPool
