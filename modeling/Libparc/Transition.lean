import Mathlib.Tactic.Common

/-! # Runs of a transition system

A system is a step function on states; the actions of a schedule say who
moves next, so the schedules are the interleavings. What every step keeps
holds in every state of every run, and a system whose steps are matched by
another's only reaches states the other one matches. Where not every step keeps
the invariant, the steps that do are a condition on the run (`AllSteps`). -/
namespace Libparc.Transition

variable {σ τ ι κ : Type} {step : σ → ι → σ}

/-- The state after a schedule. -/
def run (step : σ → ι → σ) (s : σ) (schedule : List ι) : σ := schedule.foldl step s

@[simp] theorem run_nil (s : σ) : run step s [] = s := rfl

theorem run_append (s : σ) (l1 l2 : List ι) :
    run step s (l1 ++ l2) = run step (run step s l1) l2 := List.foldl_append

theorem run_invariant (Inv : σ → Prop) (hst : ∀ s a, Inv s → Inv (step s a)) {s}
    (hs : Inv s) (sched : List ι) : Inv (run step s sched) := by
  induction sched generalizing s with
  | nil => exact hs
  | cons a sched ih => exact ih (hst s a hs)

theorem run_refines (step' : τ → κ → τ) (R : σ → τ → Prop)
    (hst : ∀ s t a, R s t → ∃ l : List κ, R (step s a) (run step' t l)) {s t}
    (hs : R s t) (sched : List ι) :
    ∃ sched' : List κ, R (run step s sched) (run step' t sched') := by
  induction sched generalizing s t with
  | nil => exact ⟨[], hs⟩
  | cons a sched ih =>
    obtain ⟨l, hl⟩ := hst s t a hs
    obtain ⟨l', hl'⟩ := ih hl
    refine ⟨l ++ l', ?_⟩
    rw [run_append]
    exact hl'

/-- Every step of a run is a good one, in the state it is taken in. -/
def AllSteps (step : σ → ι → σ) (good : σ → ι → Prop) : σ → List ι → Prop
  | _, [] => True
  | s, a :: schedule => good s a ∧ AllSteps step good (step s a) schedule

theorem AllSteps.and {good good' : σ → ι → Prop} {s schedule} (h : AllSteps step good s schedule)
    (h' : AllSteps step good' s schedule) :
    AllSteps step (fun s a => good s a ∧ good' s a) s schedule := by
  induction schedule generalizing s with
  | nil => trivial
  | cons a schedule ih => exact ⟨⟨h.1, h'.1⟩, ih h.2 h'.2⟩

theorem allSteps_iff {good safe} (Inv : σ → Prop) (hg : ∀ s a, Inv s → (good s a ↔ safe s a))
    (hst : ∀ s a, Inv s → safe s a → Inv (step s a)) {s} (hs : Inv s) (schedule : List ι) :
    AllSteps step good s schedule ↔ AllSteps step safe s schedule := by
  induction schedule generalizing s with
  | nil => exact Iff.rfl
  | cons a schedule ih =>
    constructor
    · intro h
      have hsa := (hg s a hs).mp h.1
      exact ⟨hsa, (ih (hst s a hs hsa)).mp h.2⟩
    · intro h
      exact ⟨(hg s a hs).mpr h.1, (ih (hst s a hs h.1)).mpr h.2⟩

theorem run_safe {safe} (Inv : σ → Prop)
    (hst : ∀ s a, Inv s → safe s a → Inv (step s a)) {s} (hs : Inv s) {sched}
    (h : AllSteps step safe s sched) : Inv (run step s sched) := by
  induction sched generalizing s with
  | nil => exact hs
  | cons a sched ih => exact ih (hst s a hs h.1) h.2

end Libparc.Transition
