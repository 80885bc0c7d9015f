import Mathlib.Tactic.Common

/-! # A mutex with a condition variable

An error-checking mutex of the threads library and one condition variable that
is used with it. A thread that waits for the condition gives the mutex back and
falls asleep in one step. It may be woken at any time, by a notification or
without one, and comes back when it has taken the mutex again. -/
namespace Libparc
open Function

/-- Whether a thread waits for the condition; a woken one waits for the mutex. -/
inductive Sleep where
  | awake
  | asleep
  | woken
  deriving DecidableEq, Repr

structure Monitor (ι : Type) where
  owner : Option ι
  sleep : ι → Sleep

namespace Monitor
variable {ι : Type}

def create : Monitor ι := ⟨none, fun _ => .awake⟩

/-- `pthread_mutex_trylock`: whether it returned 0. -/
def tryLock (m : Monitor ι) (i : ι) : Bool × Monitor ι :=
  match m.owner with
  | none => (true, { m with owner := some i })
  | some _ => (false, m)

/-- `pthread_cond_broadcast`. -/
def wakeAll (m : Monitor ι) : Monitor ι :=
  { m with sleep := fun i => if m.sleep i = .asleep then .woken else m.sleep i }

theorem tryLock_cases (m : Monitor ι) (i : ι) :
    (m.owner = none ∧ m.tryLock i = (true, { m with owner := some i })) ∨
      (m.owner ≠ none ∧ m.tryLock i = (false, m)) := by
  unfold tryLock
  split
  · rename_i hf
    exact .inl ⟨hf, rfl⟩
  · rename_i j hh
    refine .inr ⟨?_, rfl⟩
    rw [hh]
    exact Option.some_ne_none j

theorem wakeAll_of_awake {m : Monitor ι} (h : ∀ i, m.sleep i = .awake) : m.wakeAll = m := by
  have hs : (fun i => if m.sleep i = .asleep then Sleep.woken else m.sleep i) = m.sleep := by
    funext i
    exact if_neg (by rw [h i]; exact nofun)
  unfold wakeAll
  rw [hs]

variable [DecidableEq ι]

/-- `pthread_mutex_lock`: whether it returned 0, or none where the thread blocks. -/
def lock (m : Monitor ι) (i : ι) : Option (Bool × Monitor ι) :=
  match m.owner with
  | none => some (true, { m with owner := some i })
  | some j => if j = i then some (false, m) else none

/-- `pthread_mutex_unlock`: whether it returned 0. -/
def unlock (m : Monitor ι) (i : ι) : Bool × Monitor ι :=
  if m.owner = some i then (true, { m with owner := none }) else (false, m)

/-- `pthread_cond_wait` up to the sleep; a thread that does not hold the mutex
gets an error. -/
def wait (m : Monitor ι) (i : ι) : Monitor ι :=
  if m.owner = some i then ⟨none, Function.update m.sleep i .asleep⟩ else m

/-- A thread is woken, if it sleeps. -/
def wake (m : Monitor ι) (i : ι) : Monitor ι :=
  if m.sleep i = .asleep then { m with sleep := Function.update m.sleep i .woken } else m

/-- The end of `pthread_cond_wait`, once the mutex is free. -/
def reacquire (m : Monitor ι) (i : ι) : Monitor ι :=
  if m.sleep i = .woken ∧ m.owner = none then ⟨some i, Function.update m.sleep i .awake⟩ else m

variable {m m' : Monitor ι} {i j : ι} {b : Bool}

theorem lock_eq_some (h : m.lock i = some (b, m')) :
    (m.owner = none ∧ b = true ∧ m' = { m with owner := some i }) ∨
      (m.owner = some i ∧ b = false ∧ m' = m) := by
  unfold lock at h
  split at h
  · rename_i hf
    cases h
    exact .inl ⟨hf, rfl, rfl⟩
  · rename_i j hh
    split at h
    · rename_i hji
      cases h
      exact .inr ⟨hji ▸ hh, rfl, rfl⟩
    · cases h

theorem unlock_owner (h : m.owner = some i) : m.unlock i = (true, { m with owner := none }) :=
  if_pos h

theorem unlock_other (h : m.owner ≠ some i) : m.unlock i = (false, m) := if_neg h

theorem wait_owner (h : m.owner = some i) : m.wait i = ⟨none, update m.sleep i .asleep⟩ := if_pos h

theorem wait_other (h : m.owner ≠ some i) : m.wait i = m := if_neg h

theorem wake_of_awake (h : m.sleep i = .awake) : m.wake i = m := if_neg (by rw [h]; exact nofun)

theorem reacquire_of_awake (h : m.sleep i = .awake) : m.reacquire i = m := if_neg fun hw => by
    rw [h] at hw
    cases hw.1

end Monitor
end Libparc
