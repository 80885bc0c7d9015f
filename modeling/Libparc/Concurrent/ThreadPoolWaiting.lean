import Libparc.Concurrent.ThreadPool

/-! # The threads of a pool that wait

A client in AwaitTermination sleeps while tasks are in the queue, and waits for the
condition of the queue together with the idle workers. A worker that has run a task
wakes up one of those that sleep. Where this is a client, if one sleeps, no client
sleeps for an empty queue without somebody on the way to wake it up. -/
namespace Libparc.ThreadPool
open Function

variable {n : Nat} {κ τ : Type} {pool : PARCThreadPool n κ τ}

/-! ## Fair runs -/

/-- The thread that moves. The calls that a client begins, and threads that wake up for
no reason, are nobody's moves. -/
def Event.actor : Event n κ τ → Option (Fin n ⊕ κ)
  | .worker w _ => some (.inl w)
  | .client c _ => some (.inr c)
  | .call _ _ | .spurious _ => none

/-- The thread that an event moves: the one that acts, or the client that begins a call. -/
def Event.mover : Event n κ τ → Option (Fin n ⊕ κ)
  | .worker w _ => some (.inl w)
  | .client c _ | .call c _ => some (.inr c)
  | .spurious _ => none

theorem Event.mover_eq {e : Event n κ τ} {thread} (h : e.actor = some thread) :
    e.mover = some thread := by
  cases e with
  | worker w waiter | client c waiter => exact h
  | _ => cases h

theorem Event.eq_worker {e : Event n κ τ} {w} (h : e.mover = some (.inl w)) :
    ∃ waiter, e = .worker w waiter := by
  cases e with
  | worker v waiter =>
    cases h
    exact ⟨waiter, rfl⟩
  | _ => cases h

variable {c : κ} {pl : Client τ}

theorem Event.eq_client {e : Event n κ τ} (h : e.mover = some (.inr c)) :
    (∃ w, e = .client c w) ∨ ∃ request, e = .call c request := by
  cases e with
  | client d w =>
    cases h
    exact .inl ⟨w, rfl⟩
  | call d request =>
    cases h
    exact .inr ⟨request, rfl⟩
  | _ => cases h

/-- A client is in a call and does not sleep. -/
def Client.Active : Client τ → Prop
  | .out _ | .asleep _ => False
  | _ => True

/-- A thread is able to move: a worker that sleeps wakes up when its time is over, but
a client that sleeps without a timeout waits to be woken up. -/
def Enabled (pool : PARCThreadPool n κ τ) : Fin n ⊕ κ → Prop
  | .inl w => pool.workers w ≠ .exited
  | .inr c =>
    match pool.clients c with
    | .out _ => False
    | .asleep timeout => timeout ≠ .never
    | .waiting k => ∀ h : k < n, pool.workers ⟨k, h⟩ = .exited
    | _ => True

/-- A thread waits for the condition of the queue. -/
def Asleep (pool : PARCThreadPool n κ τ) : Fin n ⊕ κ → Prop
  | .inl w => pool.workers w = .asleep
  | .inr c => ∃ timeout, pool.clients c = .asleep timeout

/-- The event is a notification of one thread. -/
def Event.Notifies (pool : PARCThreadPool n κ τ) : Event n κ τ → Prop
  | .worker w _ => pool.workers w = .notifying
  | .client c _ => ∃ task, pool.clients c = .appending task
  | .call _ _ | .spurious _ => False

def Event.waiter : Event n κ τ → Option (Fin n ⊕ κ)
  | .worker _ waiter | .client _ waiter => waiter
  | .call _ _ | .spurious _ => none

/-- A notification wakes up a thread that sleeps, if one does. -/
def Delivered (pool : PARCThreadPool n κ τ) (e : Event n κ τ) : Prop :=
  e.Notifies pool → ∀ sleeper, Asleep pool sleeper →
    ∃ waiter, e.waiter = some waiter ∧ Asleep pool waiter

/-- The notification of a worker wakes up a client, if one sleeps. -/
def WakesClient (pool : PARCThreadPool n κ τ) : Event n κ τ → Prop
  | .worker w waiter => pool.workers w = .notifying → ∀ c, Asleep pool (.inr c) →
    ∃ d, waiter = some (.inr d) ∧ Asleep pool (.inr d)
  | _ => True

theorem Delivered.wakesClient {pool} {e : Event 1 κ τ}
    (h : Delivered pool e) : WakesClient pool e := by
  cases e with
  | worker w waiter =>
    intro hw c hc
    obtain ⟨sleeper, hwa, hs⟩ := h hw _ hc
    cases sleeper with
    | inl v =>
      rw [Subsingleton.elim v w] at hs
      exact absurd (hs.symm.trans hw) nofun
    | inr d => exact ⟨d, hwa, hs⟩
  | _ => trivial

/-! ## What a step leaves as it is -/

/-- A step of the thread `a`: the other threads are where they were, or woken up, and the
flags that were set are set. -/
structure Keeps (a : Option (Fin n ⊕ κ)) (pool pool' : PARCThreadPool n κ τ) : Prop where
  workers : ∀ w, a ≠ some (.inl w) →
    pool'.workers w = pool.workers w ∨ pool'.workers w = (pool.workers w).wake
  clients : ∀ c, a ≠ some (.inr c) →
    pool'.clients c = pool.clients c ∨ pool'.clients c = (pool.clients c).wake
  isTerminating : pool.isTerminating = true → pool'.isTerminating = true
  isCancelled : ∀ w, pool.isCancelled w = true → pool'.isCancelled w = true

variable {a : Option (Fin n ⊕ κ)} {pool' : PARCThreadPool n κ τ}

theorem Keeps.refl (a : Option (Fin n ⊕ κ)) (pool : PARCThreadPool n κ τ) : Keeps a pool pool :=
  ⟨fun _ _ => .inl rfl, fun _ _ => .inl rfl, id, fun _ => id⟩

@[simp] theorem Worker.wake_wake (pl : Worker τ) : pl.wake.wake = pl.wake := by
  cases pl <;> rfl

@[simp] theorem Client.wake_wake (pl : Client τ) : pl.wake.wake = pl.wake := by
  cases pl <;> rfl

theorem Keeps.trans {pool''} (h : Keeps a pool pool')
    (h' : Keeps a pool' pool'') : Keeps a pool pool'' where
  workers w hw := by
    obtain heq | heq := h.workers w hw
    · rw [← heq]
      exact h'.workers w hw
    · have hl := h'.workers w hw
      rw [heq, Worker.wake_wake, or_self] at hl
      exact .inr hl
  clients c hc := by
    obtain heq | heq := h.clients c hc
    · rw [← heq]
      exact h'.clients c hc
    · have hl := h'.clients c hc
      rw [heq, Client.wake_wake, or_self] at hl
      exact .inr hl
  isTerminating := h'.isTerminating ∘ h.isTerminating
  isCancelled w := h'.isCancelled w ∘ h.isCancelled w

section
variable (a : Option (Fin n ⊕ κ)) (pool : PARCThreadPool n κ τ)

theorem keeps_fields
    (workQueue accepted ran : List τ) (cnt : BitVec 64) (isTerminated drained : Bool)
    (joined : Fin n → Bool) :
    Keeps a pool { pool with
      workQueue := workQueue
      completedTaskCount := cnt
      isTerminated := isTerminated
      joined := joined
      accepted := accepted
      ran := ran
      drained } :=
  ⟨fun _ _ => .inl rfl, fun _ _ => .inl rfl, id, fun _ => id⟩

theorem keeps_shutdown : Keeps a pool (shutdown pool) :=
  ⟨fun _ _ => .inl rfl, fun _ _ => .inl rfl, fun _ => rfl, fun _ => id⟩

theorem keeps_cancel (w : Fin n) :
    Keeps a pool { pool with isCancelled := update pool.isCancelled w true } := by
  refine ⟨fun _ _ => .inl rfl, fun _ _ => .inl rfl, id, fun v hv => ?_⟩
  by_cases heq : v = w
  · exact heq ▸ update_self ..
  · exact (update_of_ne heq ..).trans hv

theorem keeps_notifyAll : Keeps a pool (notifyAll pool) :=
  ⟨fun _ _ => .inr rfl, fun _ _ => .inr rfl, id, fun _ => id⟩

end

theorem Keeps.setWorker {w} (h : Keeps (some (.inl w)) pool pool') (pl : Worker τ) :
    Keeps (some (.inl w)) pool (setWorker pool' w pl) := by
  refine h.trans ⟨fun v hv => .inl (update_of_ne ?_ ..), fun _ _ => .inl rfl, id, fun _ => id⟩
  exact fun heq => hv (heq ▸ rfl)

section
variable [DecidableEq κ]

theorem Keeps.setClient {c} (h : Keeps (some (.inr c)) pool pool') (pl : Client τ) :
    Keeps (some (.inr c)) pool (setClient pool' c pl) := by
  refine h.trans ⟨fun _ _ => .inl rfl, fun d hd => .inl (update_of_ne ?_ ..), id, fun _ => id⟩
  exact fun heq => hd (heq ▸ rfl)

theorem keeps_wake (a : Option (Fin n ⊕ κ)) (pool : PARCThreadPool n κ τ) (waiter : Fin n ⊕ κ) :
    Keeps a pool (wake pool waiter) := by
  cases waiter with
  | inl v =>
    refine ⟨fun w _ => ?_, fun _ _ => .inl rfl, id, fun _ => id⟩
    by_cases hv : w = v
    · subst hv
      exact .inr (update_self ..)
    · exact .inl (update_of_ne hv ..)
  | inr d =>
    refine ⟨fun _ _ => .inl rfl, fun c _ => ?_, id, fun _ => id⟩
    by_cases hd : c = d
    · subst hd
      exact .inr (update_self ..)
    · exact .inl (update_of_ne hd ..)

theorem Keeps.notify (h : Keeps a pool pool') (w : Option (Fin n ⊕ κ)) :
    Keeps a pool (notify pool' w) := by
  cases w with
  | none => exact h
  | some w => exact h.trans (keeps_wake a pool' w)

section
variable (pool : PARCThreadPool n κ τ)

theorem keeps_stepWorker (w : Fin n) (waiter : Option (Fin n ⊕ κ)) :
    Keeps (some (.inl w)) pool (stepWorker pool w waiter) := by
  have hs : Keeps (some (.inl w)) pool pool := .refl ..
  unfold stepWorker
  cases pool.workers w with
  | taking =>
    cases pool.workQueue with
    | nil => exact hs.setWorker _
    | cons task wq =>
      exact (keeps_fields ..).setWorker _
  | running task => exact (keeps_fields ..).setWorker _
  | notifying => exact (hs.setWorker _).notify waiter
  | exited => exact hs
  | _ => exact hs.setWorker _

theorem keeps_drain (c : κ) (timeout : PARCTimeout) :
    Keeps (some (.inr c)) pool (drain pool c timeout) := by
  have hs : Keeps (some (.inr c)) pool pool := .refl ..
  unfold drain
  cases pool.workQueue with
  | nil => exact (keeps_fields ..).setClient _
  | cons task wq => exact hs.setClient _

theorem keeps_stepClient (c : κ) (w : Option (Fin n ⊕ κ)) :
    Keeps (some (.inr c)) pool (stepClient pool c w) := by
  have hs : Keeps (some (.inr c)) pool pool := .refl ..
  unfold stepClient
  cases pool.clients c with
  | out returned => exact hs
  | appending task =>
    exact ((keeps_fields ..).setClient _).notify w
  | shuttingDown | closing => exact (keeps_shutdown ..).setClient _
  | draining timeout | woken timeout => exact keeps_drain pool c timeout
  | asleep timeout =>
    dsimp only
    split
    · exact hs
    · exact hs.setClient _
  | cancelling k =>
    dsimp only
    split
    · rename_i hk
      exact (keeps_cancel _ pool ⟨k, hk⟩).setClient _
    · exact hs.setClient _
  | notifyingQueue => exact (keeps_notifyAll ..).setClient _
  | joining k =>
    dsimp only
    split
    · split
      · exact hs.setClient _
      · exact (keeps_fields ..).setClient _
    · exact hs.setClient _
  | waiting k =>
    dsimp only
    split
    · split
      · exact hs.setClient _
      · exact hs
    · exact hs.setClient _
  | terminating => exact (keeps_fields ..).setClient _
  | _ => exact hs.setClient _

theorem keeps_step (e : Event n κ τ) : Keeps e.mover pool (step pool e) := by
  cases e with
  | worker w waiter => exact keeps_stepWorker pool w waiter
  | client c waiter => exact keeps_stepClient pool c waiter
  | call c r =>
    unfold step
    dsimp only
    split
    · exact (Keeps.refl ..).setClient _
    · exact .refl ..
  | spurious waiter => exact keeps_wake _ pool waiter

end

theorem workers_step {w : Fin n} (hw : (pool.workers w).wake = pool.workers w) (e : Event n κ τ) :
    (∃ waiter, e = .worker w waiter) ∨
      (e.actor ≠ some (.inl w) ∧ (step pool e).workers w = pool.workers w) := by
  by_cases he : e.mover = some (.inl w)
  · exact .inl (Event.eq_worker he)
  · have hk := (keeps_step pool e).workers w he
    rw [hw, or_self] at hk
    exact .inr ⟨mt Event.mover_eq he, hk⟩

theorem call_cases (pool : PARCThreadPool n κ τ) (c : κ) (r : Request τ) :
    step pool (.call c r) = pool ∨ (∃ returned, pool.clients c = .out returned) ∧
      step pool (.call c r) = setClient pool c r.place := by
  rw [step]
  split
  · exact .inr ⟨⟨_, ‹_›⟩, rfl⟩
  · exact .inl rfl

theorem clients_step (hc : (pool.clients c).Active) (e : Event n κ τ) :
    (∃ w, e = .client c w) ∨
      (e.actor ≠ some (.inr c) ∧ (step pool e).clients c = pool.clients c) := by
  by_cases he : e.mover = some (.inr c)
  · refine (Event.eq_client he).imp_right ?_
    rintro ⟨r, rfl⟩
    obtain hs | ⟨⟨returned, ho⟩, -⟩ := call_cases pool c r
    · exact ⟨nofun, by rw [hs]⟩
    · rw [ho] at hc
      cases hc
  · have ha : (pool.clients c).wake = pool.clients c := by
      cases hp : pool.clients c with
      | asleep timeout =>
        rw [hp] at hc
        cases hc
      | _ => rfl
    have hk := (keeps_step pool e).clients c he
    rw [ha, or_self] at hk
    exact .inr ⟨mt Event.mover_eq he, hk⟩

/-- Where its own step takes a client. -/
def Client.next (pool : PARCThreadPool n κ τ) : Client τ → Client τ
  | .out returned => .out returned
  | .executing task => if pool.isShutdown then .out (.execute false) else .appending task
  | .appending _ => .out (.execute true)
  | .shuttingDown => .out .shutdown
  | .awaiting timeout =>
    if pool.isTerminating then .draining timeout else .out (.awaitTermination false)
  | .draining timeout | .woken timeout =>
    match pool.workQueue with
    | [] => .closing
    | _ :: _ => .asleep timeout
  | .asleep timeout => if timeout = .never then .asleep timeout else .woken timeout
  | .closing => .cancelling 0
  | .cancelling k => if k < n then .cancelling (k + 1) else .notifyingPool
  | .notifyingPool => .notifyingQueue
  | .notifyingQueue => .joining 0
  | .joining k =>
    if h : k < n then if pool.joined ⟨k, h⟩ then .joining (k + 1) else .waiting k
    else .terminating
  | .waiting k =>
    if h : k < n then
      match pool.workers ⟨k, h⟩ with
      | .exited => .joining (k + 1)
      | _ => .waiting k
    else .terminating
  | .terminating => .out (.awaitTermination true)

theorem clients_drain (pool : PARCThreadPool n κ τ) (c : κ) (timeout : PARCTimeout) :
    (drain pool c timeout).clients c = (Client.draining timeout).next pool := by
  unfold drain Client.next
  cases pool.workQueue with
  | _ => exact setClient_self ..

theorem clients_stepClient (pool : PARCThreadPool n κ τ) (c : κ) (w : Option (Fin n ⊕ κ)) :
    (stepClient pool c w).clients c = (pool.clients c).next pool := by
  unfold stepClient
  cases hc : pool.clients c with
  | out returned => exact hc
  | appending task =>
    obtain hs | hw := ((Keeps.refl none _).notify w).clients c nofun
    · exact hs.trans (setClient_self ..)
    · rw [hw, setClient_self]
      rfl
  | draining timeout | woken timeout => exact clients_drain pool c timeout
  | asleep timeout =>
    dsimp only [Client.next]
    split
    · exact hc
    · exact setClient_self ..
  | cancelling k =>
    dsimp only [Client.next]
    split
    all_goals exact setClient_self ..
  | joining k =>
    dsimp only [Client.next]
    split
    · split
      all_goals exact setClient_self ..
    · exact setClient_self ..
  | waiting k =>
    dsimp only [Client.next]
    split
    · rename_i hk
      cases pool.workers ⟨k, hk⟩ with
      | exited => exact setClient_self ..
      | _ => exact hc
    · exact setClient_self ..
  | _ => exact setClient_self ..

end

/-! ## Who wakes up a client -/

/-- A worker that notifies before it sleeps again. -/
def Worker.Busy : Worker τ → Prop
  | .running _ | .notifying => True
  | _ => False

/-- A client that has the lock of an empty queue, or gets it, and notifies all. -/
def Client.Helps : Client τ → Prop
  | .draining _ | .woken _ | .closing | .cancelling _ | .notifyingPool | .notifyingQueue => True
  | _ => False

def Helper (pool : PARCThreadPool n κ τ) : Fin n ⊕ κ → Prop
  | .inl w => (pool.workers w).Busy
  | .inr c => (pool.clients c).Helps

/-- Where a client sleeps although the queue is empty, there is somebody to wake up a
client. -/
def Helped (pool : PARCThreadPool n κ τ) : Prop :=
  pool.workQueue = [] → ∀ c, Asleep pool (.inr c) → ∃ helper, Helper pool helper

theorem helped_create : Helped (parcThreadPoolCreate n : PARCThreadPool n κ τ) := by
  intro _ c ⟨_, hc⟩
  cases hc

section
variable [DecidableEq κ]

theorem not_asleep_notifyAll (pool : PARCThreadPool n κ τ) (c d : κ) :
    ¬Asleep (setClient (notifyAll pool) c (.joining 0)) (.inr d) := by
  intro ⟨timeout, hd⟩
  by_cases hne : d = c
  · subst hne
    rw [setClient_self] at hd
    cases hd
  · rw [setClient_of_ne _ hne] at hd
    cases hp : pool.clients d with
    | _ => simp only [notifyAll, hp, Client.wake, reduceCtorEq] at hd

end

/-! ## The workers are cancelled before they are joined -/

/-- How many workers a client has cancelled. -/
def Client.cancelled (n : Nat) : Client τ → Nat
  | .cancelling k => k
  | .notifyingPool | .notifyingQueue | .joining _ | .waiting _ | .terminating => n
  | _ => 0

@[simp] theorem Client.cancelled_wake (pl : Client τ) : pl.wake.cancelled n = pl.cancelled n := by
  cases pl <;> rfl

def Cancelled (pool : PARCThreadPool n κ τ) : Prop :=
  ∀ c (w : Fin n), w < (pool.clients c).cancelled n → pool.isCancelled w = true

theorem cancelled_create : Cancelled (parcThreadPoolCreate n : PARCThreadPool n κ τ) :=
  fun _ _ h => absurd h (Nat.not_lt_zero _)

variable [DecidableEq κ]

theorem Cancelled.stepClient (h : Cancelled pool) (waiter : Option (Fin n ⊕ κ)) {w : Fin n}
    (hw : w < ((pool.clients c).next pool).cancelled n) :
    (stepClient pool c waiter).isCancelled w = true := by
  have hs := h c
  cases hc : pool.clients c with
  | cancelling k =>
    rw [hc] at hs hw
    rw [ThreadPool.stepClient, hc]
    dsimp only [Client.next] at hw ⊢
    split
    · rename_i hk
      rw [if_pos hk] at hw
      obtain hlt | heq := Nat.lt_succ_iff_lt_or_eq.mp hw
      · exact (keeps_cancel none pool ⟨k, hk⟩).isCancelled w (hs w hlt)
      · rw [show w = ⟨k, hk⟩ from Fin.ext heq]
        exact update_self ..
    · rename_i hk
      exact hs w (w.isLt.trans_le (Nat.le_of_not_lt hk))
  | notifyingPool | notifyingQueue | joining k | waiting k | terminating =>
    rw [hc] at hs
    exact (keeps_stepClient ..).isCancelled w (hs w w.isLt)
  | _ =>
    rw [hc] at hw
    simp only [Client.next] at hw
    repeat' split at hw
    all_goals exact absurd hw (Nat.not_lt_zero _)

theorem Cancelled.step (h : Cancelled pool) (e : Event n κ τ) : Cancelled (step pool e) := by
  intro c w hw
  by_cases he : e.mover = some (.inr c)
  · obtain ⟨waiter, rfl⟩ | ⟨r, rfl⟩ := Event.eq_client he
    · rw [ThreadPool.step, clients_stepClient] at hw
      exact h.stepClient waiter hw
    · obtain hs | ⟨-, hc⟩ := call_cases pool c r
      · rw [hs] at hw ⊢
        exact h c w hw
      · rw [hc, setClient_self] at hw
        cases r with
        | _ => exact absurd hw (Nat.not_lt_zero _)
  · refine (keeps_step pool e).isCancelled w (h c w ?_)
    obtain hs | hwo := (keeps_step pool e).clients c he
    · rwa [hs] at hw
    · rwa [hwo, Client.cancelled_wake] at hw

end Libparc.ThreadPool
