import Libparc.Monitor
import Libparc.Runtime
import Libparc.Transition

/-! # parc_Lock

A lock keeps a flag `locked` beside its mutex. Lock and TryLock set the flag, and
nothing takes it back: not Unlock, and not the sleep in Wait. A call is one step,
with the mutex operation in it, except for Wait, whose loop takes one step for each
turn. A trap stops the program where it is. -/
namespace Libparc.Lock
open Transition Monitor

variable {ι : Type}

/-- `struct PARCLock`, with the threads that are in the loop of Wait, and the trap of
the thread that ran into one. -/
structure PARCLock (ι : Type) where
  monitor : Monitor ι
  locked : Bool
  notified : Bool
  inWait : ι → Bool
  trapped : Option (ι × Trap)

def parcLockCreate : PARCLock ι := ⟨.create, false, false, fun _ => false, none⟩

def parcLockIsLocked (lock : PARCLock ι) : Bool := lock.locked

def parcLockTryLock (lock : PARCLock ι) (i : ι) : PARCLock ι :=
  match lock.monitor.tryLock i with
  | (true, monitor) => { lock with monitor, locked := true }
  | (false, monitor) => { lock with monitor }

section
variable [DecidableEq ι] (lock : PARCLock ι)

def parcLockUnlock (i : ι) : PARCLock ι :=
  if lock.locked then { lock with monitor := (lock.monitor.unlock i).2 } else lock

/-- A call that blocks leaves everything as it is. -/
def parcLockLock (i : ι) : PARCLock ι :=
  match lock.monitor.lock i with
  | some (true, monitor) => { lock with monitor, locked := true }
  | some (false, monitor) => { lock with monitor }
  | none => lock

/-- Wait up to its loop. -/
def parcLockWait (i : ι) : PARCLock ι :=
  if lock.locked = false then
    { lock with trapped := some (i, .unexpectedState
        "You must Lock the object before calling parcLock_Wait") }
  else { lock with notified := false, inWait := Function.update lock.inWait i true }

/-- A turn of the loop of Wait. -/
def waitTurn (i : ι) : PARCLock ι :=
  if lock.notified = false then { lock with monitor := lock.monitor.wait i }
  else { lock with inWait := Function.update lock.inWait i false }

/-- The notification wakes a thread `j`. -/
def parcLockNotify (i j : ι) : PARCLock ι :=
  if lock.locked = false then
    { lock with trapped := some (i, .unexpectedState
        "You must Lock the object before calling parcLock_Notify") }
  else { lock with notified := true, monitor := lock.monitor.wake j }

/-- The calls of the threads, the turns of the loop of Wait, and what the threads
library does with a thread that sleeps. -/
inductive Event (ι : Type) where
  | lock (i : ι)
  | tryLock (i : ι)
  | unlock (i : ι)
  | wait (i : ι)
  | notify (i j : ι)
  | turn (i : ι)
  | wake (i : ι)
  | reacquire (i : ι)

def call : Event ι → PARCLock ι
  | .lock i => parcLockLock lock i
  | .tryLock i => parcLockTryLock lock i
  | .unlock i => parcLockUnlock lock i
  | .wait i => parcLockWait lock i
  | .notify i j => parcLockNotify lock i j
  | .turn i => waitTurn lock i
  | .wake i => { lock with monitor := lock.monitor.wake i }
  | .reacquire i => { lock with monitor := lock.monitor.reacquire i }

/-- A thread that can make a call, or is in the loop of Wait. -/
def Awake (i : ι) (inWait : Bool) : Prop :=
  lock.monitor.sleep i = .awake ∧ lock.inWait i = inWait

instance (lock : PARCLock ι) (i : ι) (inWait : Bool) : Decidable (Awake lock i inWait) :=
  inferInstanceAs (Decidable (_ ∧ _))

def Event.Possible : Event ι → Prop
  | .lock i | .tryLock i | .unlock i | .wait i | .notify i _ => Awake lock i false
  | .turn i => Awake lock i true
  | .wake _ | .reacquire _ => True

instance (lock : PARCLock ι) : (e : Event ι) → Decidable (e.Possible lock)
  | .lock i | .tryLock i | .unlock i | .wait i | .notify i _ =>
    inferInstanceAs (Decidable (Awake lock i false))
  | .turn i => inferInstanceAs (Decidable (Awake lock i true))
  | .wake _ | .reacquire _ => inferInstanceAs (Decidable True)

def step (e : Event ι) : PARCLock ι :=
  if lock.trapped = none ∧ e.Possible lock then call lock e else lock

end

/-! ## The flag and the mutex -/

variable {s : PARCLock ι}

/-- The flag is right, and no thread sleeps. -/
structure Settled (s : PARCLock ι) : Prop where
  locked : s.locked = s.monitor.owner.isSome
  awake : ∀ i, s.monitor.sleep i = .awake

theorem settled_create : Settled (parcLockCreate : PARCLock ι) := ⟨rfl, fun _ => rfl⟩

theorem Settled.tryLock (h : Settled s) (i : ι) : Settled (parcLockTryLock s i) := by
  unfold parcLockTryLock
  obtain ⟨-, ht⟩ | ⟨-, ht⟩ := s.monitor.tryLock_cases i
  · rw [ht]
    exact ⟨rfl, h.awake⟩
  · rw [ht]
    exact h

section
variable [DecidableEq ι]

/-- IsLocked tells whether some thread holds the mutex, and where none does, Wait and
Notify trap. -/
structure Truthful (s : PARCLock ι) : Prop where
  isLocked : parcLockIsLocked s = s.monitor.owner.isSome
  wait_traps : s.trapped = none → s.monitor.owner = none → ∀ i, Awake s i false →
    ∃ text, (step s (.wait i)).trapped = some (i, .unexpectedState text)
  notify_traps : s.trapped = none → s.monitor.owner = none → ∀ i j, Awake s i false →
    ∃ text, (step s (.notify i j)).trapped = some (i, .unexpectedState text)

/-- The thread that holds the mutex does not unlock it, and does not sleep in Wait. -/
def Safe (s : PARCLock ι) : Event ι → Prop
  | .unlock i => s.trapped = none → Awake s i false → s.monitor.owner ≠ some i
  | .turn i => s.trapped = none → Awake s i true → s.notified = false →
    s.monitor.owner ≠ some i
  | _ => True

variable {i : ι} {e : Event ι}

theorem step_of (ht : s.trapped = none) (hp : e.Possible s) : step s e = call s e := if_pos ⟨ht, hp⟩

section
variable (h : Settled s)
include h

theorem Settled.truthful : Truthful s := by
  have hu (hf : s.monitor.owner = none) : s.locked = false := by
    rw [h.locked, hf]
    rfl
  refine ⟨h.locked, fun ht hf i hi => ?_, fun ht hf i j hi => ?_⟩
  · rw [step_of (e := .wait i) ht hi, call, parcLockWait, if_pos (hu hf)]
    exact ⟨_, rfl⟩
  · rw [step_of (e := .notify i j) ht hi, call, parcLockNotify, if_pos (hu hf)]
    exact ⟨_, rfl⟩

theorem Settled.lock (i : ι) : Settled (parcLockLock s i) := by
  unfold parcLockLock
  cases hl : s.monitor.lock i with
  | none => exact h
  | some r =>
    obtain ⟨b, monitor⟩ := r
    obtain ⟨-, rfl, rfl⟩ | ⟨-, rfl, rfl⟩ := lock_eq_some hl
    · exact ⟨rfl, h.awake⟩
    · exact h

theorem Settled.unlock (ho : s.monitor.owner ≠ some i) : Settled (parcLockUnlock s i) := by
  unfold parcLockUnlock
  rw [unlock_other ho]
  split
  · exact h
  · exact h

theorem Settled.wait (i : ι) : Settled (parcLockWait s i) := by
  unfold parcLockWait
  split
  all_goals exact ⟨h.locked, h.awake⟩

theorem Settled.waitTurn (ho : s.notified = false → s.monitor.owner ≠ some i) :
    Settled (Lock.waitTurn s i) := by
  unfold Lock.waitTurn
  split
  · rename_i hw
    rw [wait_other (ho hw)]
    exact h
  · exact ⟨h.locked, h.awake⟩

theorem Settled.notify (i j : ι) : Settled (parcLockNotify s i j) := by
  unfold parcLockNotify
  rw [wake_of_awake (h.awake j)]
  split
  all_goals exact ⟨h.locked, h.awake⟩

theorem Settled.step_of_safe (hs : Safe s e) : Settled (step s e) := by
  unfold step
  split
  · rename_i hr
    obtain ⟨ht, hp⟩ := hr
    cases e with
    | lock i => exact h.lock i
    | tryLock i => exact h.tryLock i
    | unlock i => exact h.unlock (hs ht hp)
    | wait i => exact h.wait i
    | notify i j => exact h.notify i j
    | turn i => exact h.waitTurn (hs ht hp)
    | wake i =>
      rw [call, wake_of_awake (h.awake i)]
      exact h
    | reacquire i =>
      rw [call, reacquire_of_awake (h.awake i)]
      exact h
  · exact h

theorem Settled.safe_of_truthful (htr : Truthful (step s e)) : Safe s e := by
  have hl {i : ι} (ho : s.monitor.owner = some i) : s.locked = true := by
    rw [h.locked, ho]
    rfl
  cases e with
  | unlock i =>
    intro ht ha ho
    have hf := htr.isLocked
    rw [step_of (e := .unlock i) ht ha, call, parcLockUnlock, if_pos (hl ho),
      unlock_owner ho, parcLockIsLocked, hl ho] at hf
    cases hf
  | turn i =>
    intro ht ha hw ho
    have hf := htr.isLocked
    rw [step_of (e := .turn i) ht ha, call, Lock.waitTurn, if_pos hw,
      wait_owner ho, parcLockIsLocked, hl ho] at hf
    cases hf
  | _ => trivial

end

/-- **IsLocked and the traps are right** after every event of a run exactly if the
mutex is never given back, by Unlock or in Wait. -/
theorem lock_truthful_iff (schedule : List (Event ι)) :
    AllSteps step (fun s e => Truthful (step s e)) parcLockCreate schedule ↔
      AllSteps step Safe parcLockCreate schedule :=
  allSteps_iff Settled (fun _ _ h => ⟨h.safe_of_truthful, fun hs => (h.step_of_safe hs).truthful⟩)
    (fun _ _ h hs => h.step_of_safe hs) settled_create schedule

end

/-- A thread locks and unlocks the lock. Nobody holds it, IsLocked says that it is
locked, and Notify does not trap. -/
theorem isLocked_after_unlock :
    (run step (parcLockCreate : PARCLock (Fin 1)) [.lock 0, .unlock 0]).monitor.owner = none ∧
      parcLockIsLocked (run step (parcLockCreate : PARCLock (Fin 1)) [.lock 0, .unlock 0]) = true ∧
      (run step (parcLockCreate : PARCLock (Fin 1)) [.lock 0, .unlock 0, .notify 0 0]).trapped =
        none :=
  ⟨rfl, rfl, rfl⟩

end Libparc.Lock
