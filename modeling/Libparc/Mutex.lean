import Mathlib.Tactic.Common

/-! # Threads that run a body under a mutex

Any number of threads call one procedure: lock the mutex, run the body step by
step on the shared state, unlock. Seen from the shared state there is one
thread, the one that holds the mutex (`current`): each step of the threads
leaves it alone, starts a call, or is a step of the body. -/
namespace Libparc.Mutex

variable {ι π α σ : Type}

/-- Where a thread is: the body's own positions are `π`, its argument `α`. -/
inductive Thread (π α : Type) where
  | idle
  | lock (arg : α)
  | inside (pc : π)
  | unlock

def Thread.holds : Thread π α → Prop
  | .inside _ => True
  | .unlock => True
  | _ => False

/-- A mutex and the threads that use it. -/
structure Guarded (ι π α : Type) where
  mutex : Option ι
  threads : ι → Thread π α

/-- The body of the procedure: its first position for an argument, the
position it has when it has returned, and one step. -/
structure Body (σ π α : Type) where
  start : α → π
  returned : π
  step : σ → π → σ × π
  start_ne : ∀ a, start a ≠ returned

/-- Thread `i` goes to `th`. -/
def Guarded.move [DecidableEq ι] (g : Guarded ι π α) (i : ι) (th : Thread π α) : Guarded ι π α :=
  ⟨g.mutex, Function.update g.threads i th⟩

/-- One step of thread `i`; a thread that cannot lock waits. An idle thread
makes a call with the argument `a`. -/
def Guarded.step [DecidableEq ι] [DecidableEq π] (body : Body σ π α) (g : Guarded ι π α) (s : σ)
    (i : ι) (a : α) : σ × Guarded ι π α :=
  match g.threads i with
  | .idle => (s, g.move i (.lock a))
  | .lock arg =>
    match g.mutex with
    | none => (s, { g.move i (.inside (body.start arg)) with mutex := some i })
    | some _ => (s, g)
  | .inside pc =>
    let (s, pc) := body.step s pc
    (s, g.move i (if pc = body.returned then .unlock else .inside pc))
  | .unlock => (s, { g.move i .idle with mutex := none })

/-- The holder of the mutex is where it should be, and no other thread is. -/
structure Guarded.Ok (body : Body σ π α) (g : Guarded ι π α) : Prop where
  holder : ∀ i, g.mutex = some i ↔ (g.threads i).holds
  running : ∀ i, g.threads i ≠ .inside body.returned

/-- The position in the body of the thread that holds the mutex. -/
def Guarded.current (body : Body σ π α) (g : Guarded ι π α) : π :=
  match g.mutex with
  | none => body.returned
  | some i =>
    match g.threads i with
    | .inside pc => pc
    | _ => body.returned

variable {body : Body σ π α} {g : Guarded ι π α}

theorem Guarded.current_inside {i pc} (h : g.Ok body) (hi : g.threads i = .inside pc) :
    g.current body = pc := by
  have hm : g.mutex = some i := (h.holder i).mpr (by rw [hi]; trivial)
  simp [current, hm, hi]

theorem Guarded.Ok.move [DecidableEq ι] (h : g.Ok body) {i th}
    (hh : th.holds ↔ (g.threads i).holds) (hr : th ≠ .inside body.returned) :
    (g.move i th).Ok body := by
  refine ⟨fun j => ?_, fun j => ?_⟩
  · by_cases hj : j = i
    · subst hj
      simpa [Guarded.move, hh] using h.holder j
    · simpa [Guarded.move, hj] using h.holder j
  · by_cases hj : j = i
    · subst hj
      simpa [Guarded.move] using hr
    · simpa [Guarded.move, hj] using h.running j

theorem Guarded.current_move [DecidableEq ι] (h : g.Ok body) {i th}
    (hth : ¬ (g.threads i).holds) : (g.move i th).current body = g.current body := by
  unfold current
  show (match g.mutex with | none => _ | some j => _) = _
  cases hm : g.mutex with
  | none => rfl
  | some j =>
    have hj : j ≠ i := by
      rintro rfl
      exact hth ((h.holder j).mp hm)
    simp [Guarded.move, hj]

/-- **What the threads do is what one thread does.** -/
theorem Guarded.step_spec [DecidableEq ι] [DecidableEq π] (h : g.Ok body) (s : σ) (i : ι) (a : α) :
    (g.step body s i a).2.Ok body ∧
      (((g.step body s i a).1 = s ∧ (g.step body s i a).2.current body = g.current body) ∨
       (∃ arg, g.current body = body.returned ∧ (g.step body s i a).1 = s ∧
          (g.step body s i a).2.current body = body.start arg) ∨ (g.current body ≠ body.returned ∧
          ((g.step body s i a).1, (g.step body s i a).2.current body) =
            body.step s (g.current body))) := by
  cases hi : g.threads i with
  | idle =>
    simp only [step, hi]
    refine ⟨h.move (by simp [hi, Thread.holds]) nofun, .inl ⟨trivial, ?_⟩⟩
    exact current_move h (by simp [hi, Thread.holds])
  | lock arg =>
    cases hm : g.mutex with
    | some j =>
      simp only [step, hi, hm]
      exact ⟨h, .inl ⟨trivial, trivial⟩⟩
    | none =>
      simp only [step, hi, hm]
      have hn : ∀ j, ¬ (g.threads j).holds := fun j hj => by
        have := (h.holder j).mpr hj
        rw [hm] at this
        cases this
      refine ⟨⟨fun j => ?_, fun j => ?_⟩, .inr (.inl ⟨arg, by simp [current, hm], trivial, ?_⟩)⟩
      · by_cases hj : j = i
        · subst hj
          simp [Guarded.move, Thread.holds]
        · simpa [Guarded.move, hj, Ne.symm hj] using hn j
      · by_cases hj : j = i
        · subst hj
          simpa [Guarded.move] using body.start_ne arg
        · simpa [Guarded.move, hj] using h.running j
      · simp [current, Guarded.move]
  | inside pc =>
    have hc := current_inside h hi
    have hne : pc ≠ body.returned := fun he => h.running i (he ▸ hi)
    have hm : g.mutex = some i := (h.holder i).mpr (by rw [hi]; trivial)
    simp only [step, hi]
    rw [hc]
    by_cases hr : (body.step s pc).2 = body.returned
    · rw [if_pos hr]
      refine ⟨h.move (by simp [hi, Thread.holds]) nofun, .inr (.inr ⟨hne, ?_⟩)⟩
      refine Prod.ext rfl ?_
      simp [current, Guarded.move, hm, hr]
    · rw [if_neg hr]
      refine ⟨h.move (by simp [hi, Thread.holds]) (by simpa using hr), .inr (.inr ⟨hne, ?_⟩)⟩
      refine Prod.ext rfl ?_
      simp [current, Guarded.move, hm]
  | unlock =>
    have hm : g.mutex = some i := (h.holder i).mpr (by rw [hi]; trivial)
    simp only [step, hi]
    refine ⟨⟨fun j => ?_, fun j => ?_⟩, .inl ⟨trivial, ?_⟩⟩
    · by_cases hj : j = i
      · subst hj
        simp [Guarded.move, Thread.holds]
      · have := h.holder j
        rw [hm] at this
        simp only [Guarded.move, Function.update_of_ne hj]
        simpa [Ne.symm hj] using this
    · by_cases hj : j = i
      · subst hj
        simp [Guarded.move]
      · simpa [Guarded.move, hj] using h.running j
    · simp [current, hm, hi]

end Libparc.Mutex
