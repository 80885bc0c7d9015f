import Libparc.Monitor
import Libparc.Runtime
import Libparc.Transition

/-! # The lock of a parc_Object

A lockable object has a mutex, a condition variable and the thread that has
locked it, which is kept apart from the mutex in `locker`. A call is one step,
with the mutex operation in it; only Wait is two, because other threads use the
object while the caller sleeps. A trap stops the program where it is. -/
namespace Libparc.ObjectLock
open Transition Monitor

variable {ι : Type}

/-- `struct parc_object_locking`, with the address of the object and the trap of the
thread that ran into one. No locker is NULL. -/
structure Locking (ι : Type) where
  object : Ptr
  monitor : Monitor ι
  locker : Option ι
  trapped : Option (ι × Trap)

def create (object : Ptr) : Locking ι := ⟨object, .create, none, none⟩

def parcObjectIsLocked (s : Locking ι) : Bool := s.locker.isSome

section
variable [DecidableEq ι] (s : Locking ι)

/-- The check of Lock and TryLock for a thread that is the locker already. -/
def ifNotLocker (i : ι) (text : String) (rest : Locking ι) : Locking ι :=
  if s.locker = some i then { s with trapped := some (i, .cannotObtainLock text) } else rest

/-- A call that blocks leaves everything as it is. -/
def parcObjectLock (i : ι) : Locking ι :=
  ifNotLocker s i s!"Recursive locks on {s.object} are not supported." <|
    match s.monitor.lock i with
    | some (true, monitor) => { s with monitor, locker := some i }
    | some (false, monitor) => { s with monitor }
    | none => s

def parcObjectTryLock (i : ι) : Locking ι :=
  ifNotLocker s i "Recursive locks are not supported." <|
    match s.monitor.tryLock i with
    | (true, monitor) => { s with monitor, locker := some i }
    | (false, monitor) => { s with monitor }

/-- The locker is gone before it is known whether the mutex could be unlocked. -/
def parcObjectUnlock (i : ι) : Locking ι :=
  match s.monitor.unlock i with
  | (true, monitor) => { s with monitor, locker := none }
  | (false, monitor) =>
    { s with monitor, locker := none,
             trapped := some (i, .assertion "Attempted to unlock an unowned lock.") }

/-- Wait, WaitUntil and WaitFor up to the sleep. -/
def parcObjectWait (i : ι) : Locking ι :=
  { s with monitor := s.monitor.wait i }

/-- The calls of the threads, and what the threads library does with a thread that
sleeps: it is woken by itself or by a timeout, and it takes the mutex again. A
notification wakes a thread `j`. -/
inductive Event (ι : Type) where
  | lock (i : ι)
  | tryLock (i : ι)
  | unlock (i : ι)
  | wait (i : ι)
  | notify (i j : ι)
  | notifyAll (i : ι)
  | wake (i : ι)
  | reacquire (i : ι)

def call : Event ι → Locking ι
  | .lock i => parcObjectLock s i
  | .tryLock i => parcObjectTryLock s i
  | .unlock i => parcObjectUnlock s i
  | .wait i => parcObjectWait s i
  | .notify _ j => { s with monitor := s.monitor.wake j }
  | .notifyAll _ => { s with monitor := s.monitor.wakeAll }
  | .wake i => { s with monitor := s.monitor.wake i }
  | .reacquire i => { s with monitor := s.monitor.reacquire i }

/-- Whether the event is possible: a call is made by a thread that is awake. -/
def Event.Possible : Event ι → Prop
  | .lock i | .tryLock i | .unlock i | .wait i | .notify i _ | .notifyAll i =>
    s.monitor.sleep i = .awake
  | .wake _ | .reacquire _ => True

instance (s : Locking ι) : (e : Event ι) → Decidable (e.Possible s)
  | .lock i | .tryLock i | .unlock i | .wait i | .notify i _ | .notifyAll i =>
    inferInstanceAs (Decidable (s.monitor.sleep i = .awake))
  | .wake _ | .reacquire _ => inferInstanceAs (Decidable True)

def step (e : Event ι) : Locking ι :=
  if s.trapped = none ∧ e.Possible s then call s e else s

end

/-! ## The locker and the mutex -/

/-- The locker is the thread that holds the mutex, so IsLocked tells the truth, and
a thread that was trapped for a recursive lock holds it. -/
structure Truthful (s : Locking ι) : Prop where
  locker : s.locker = s.monitor.owner
  isLocked : parcObjectIsLocked s = s.monitor.owner.isSome
  recursive : ∀ i text, s.trapped = some (i, .cannotObtainLock text) → s.monitor.owner = some i

/-- The thread that holds the mutex does not wait, and no thread unlocks the object
while another holds it. -/
def Safe (s : Locking ι) : Event ι → Prop
  | .wait i => s.trapped = none → s.monitor.sleep i = .awake → s.monitor.owner ≠ some i
  | .unlock i => s.trapped = none → s.monitor.sleep i = .awake →
    ∀ j, s.monitor.owner = some j → j = i
  | _ => True

variable {s : Locking ι}

/-- The locker is the holder, and no thread sleeps. -/
structure Settled (s : Locking ι) : Prop where
  locker : s.locker = s.monitor.owner
  awake : ∀ i, s.monitor.sleep i = .awake
  recursive : ∀ i text, s.trapped = some (i, .cannotObtainLock text) → s.monitor.owner = some i

theorem Settled.truthful (h : Settled s) : Truthful s :=
  ⟨h.locker, congrArg Option.isSome h.locker, h.recursive⟩

theorem settled_create (object : Ptr) : Settled (create object : Locking ι) :=
  ⟨rfl, fun _ => rfl, nofun⟩

theorem Settled.of_untrapped {monitor} (h : Settled s) (ht : s.trapped = none)
    (hs : monitor.sleep = s.monitor.sleep) :
    Settled { s with monitor, locker := monitor.owner } := by
  refine ⟨rfl, fun j => ?_, fun j text hj => ?_⟩
  · rw [hs]
    exact h.awake j
  · rw [ht] at hj
    cases hj

variable [DecidableEq ι] {i : ι} {text : String} {e : Event ι}

section
variable (h : Settled s)
include h

theorem Settled.ifNotLocker {rest}
    (hr : s.monitor.owner ≠ some i → Settled rest) : Settled (ifNotLocker s i text rest) := by
  unfold ObjectLock.ifNotLocker
  split
  · rename_i hl
    refine ⟨h.locker, h.awake, fun j text hj => ?_⟩
    cases hj
    exact h.locker.symm.trans hl
  · rename_i hl
    exact hr fun ho => hl (h.locker.trans ho)

section
variable (ht : s.trapped = none)
include ht

theorem Settled.lock (i : ι) : Settled (parcObjectLock s i) := by
  refine h.ifNotLocker fun ho => ?_
  cases hl : s.monitor.lock i with
  | none => exact h
  | some r =>
    obtain ⟨b, monitor⟩ := r
    obtain ⟨-, rfl, rfl⟩ | ⟨how, -, -⟩ := lock_eq_some hl
    · exact h.of_untrapped ht rfl
    · exact absurd how ho

theorem Settled.tryLock (i : ι) : Settled (parcObjectTryLock s i) := by
  refine h.ifNotLocker fun ho => ?_
  obtain ⟨-, htr⟩ | ⟨-, htr⟩ := s.monitor.tryLock_cases i
  · rw [htr]
    exact h.of_untrapped ht rfl
  · rw [htr]
    exact h

theorem Settled.unlock
    (hs : ∀ j, s.monitor.owner = some j → j = i) : Settled (parcObjectUnlock s i) := by
  unfold parcObjectUnlock
  by_cases ho : s.monitor.owner = some i
  · rw [unlock_owner ho]
    exact h.of_untrapped ht rfl
  · have hf : s.monitor.owner = none := by
      cases hh : s.monitor.owner with
      | none => rfl
      | some j => exact absurd (hs j hh ▸ hh) ho
    rw [unlock_other ho]
    refine ⟨hf.symm, h.awake, fun j text hj => ?_⟩
    cases hj

theorem Settled.call (hp : e.Possible s) (hs : Safe s e) : Settled (call s e) := by
  cases e with
  | lock i => exact h.lock ht i
  | tryLock i => exact h.tryLock ht i
  | unlock i => exact h.unlock ht (hs ht hp)
  | wait i =>
    rw [call, parcObjectWait, wait_other (hs ht hp)]
    exact h
  | notify i j =>
    rw [call, wake_of_awake (h.awake j)]
    exact h
  | notifyAll i =>
    rw [call, wakeAll_of_awake h.awake]
    exact h
  | wake i =>
    rw [call, wake_of_awake (h.awake i)]
    exact h
  | reacquire i =>
    rw [call, reacquire_of_awake (h.awake i)]
    exact h

end

theorem Settled.step_of_safe (hs : Safe s e) : Settled (step s e) := by
  unfold ObjectLock.step
  split
  · rename_i hr
    exact h.call hr.1 hr.2 hs
  · exact h

theorem Settled.safe_of_truthful (htr : Truthful (step s e)) : Safe s e := by
  cases e with
  | wait i =>
    intro ht ha ho
    have hs : step s (.wait i) = parcObjectWait s i := if_pos ⟨ht, ha⟩
    have hl := htr.locker
    rw [hs, parcObjectWait, wait_owner ho] at hl
    exact absurd (h.locker.symm.trans hl) (by rw [ho]; exact Option.some_ne_none i)
  | unlock i =>
    intro ht ha j ho
    by_contra hji
    have hs : step s (.unlock i) = parcObjectUnlock s i := if_pos ⟨ht, ha⟩
    have hot : s.monitor.owner ≠ some i := by
      rw [ho]
      exact fun heq => hji (Option.some.inj heq)
    have hl := htr.locker
    rw [hs, parcObjectUnlock, unlock_other hot] at hl
    exact absurd (hl.trans ho) nofun
  | _ => trivial

end

/-- **The locker is the holder of the mutex** after every event of a run exactly if
the holder never waits and nobody unlocks what another thread holds. -/
theorem locker_truthful_iff (object : Ptr) (schedule : List (Event ι)) :
    AllSteps step (fun s e => Truthful (step s e)) (create object) schedule ↔
      AllSteps step Safe (create object) schedule :=
  allSteps_iff Settled (fun _ _ h => ⟨h.safe_of_truthful, fun hs => (h.step_of_safe hs).truthful⟩)
    (fun _ _ h hs => h.step_of_safe hs) (settled_create object) schedule

/-- One thread locks the object and waits: nobody holds the mutex, and the object
says that it is locked. Another one locks and unlocks it and the first comes back:
it holds the mutex, and the object says that it is not locked. -/
theorem isLocked_in_and_after_wait :
    (run step (create 1 : Locking (Fin 2)) [.lock 0, .wait 0]).monitor.owner = none ∧
      parcObjectIsLocked (run step (create 1 : Locking (Fin 2)) [.lock 0, .wait 0]) = true ∧
      (run step (create 1 : Locking (Fin 2)) [.lock 0, .wait 0, .lock 1, .notify 1 0, .unlock 1,
        .reacquire 0]).monitor.owner = some 0 ∧
      parcObjectIsLocked (run step (create 1 : Locking (Fin 2)) [.lock 0, .wait 0, .lock 1,
        .notify 1 0, .unlock 1, .reacquire 0]) = false :=
  ⟨rfl, rfl, rfl, rfl⟩

end Libparc.ObjectLock
