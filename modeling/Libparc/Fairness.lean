import Mathlib.Data.Nat.Init
import Libparc.Transition

/-! # Infinite runs and weak fairness

An infinite run has a state and an action at each time. An actor is treated fairly if
time and again it makes a move or is not able to. A bound that no step raises and that
the moves of a fair actor lower leads to the goal. -/
namespace Libparc.Transition

variable {σ ι α : Type} {step : σ → ι → σ}

/-- An infinite run. An action that the state does not allow is a step that leaves it
as it is. -/
structure Run (step : σ → ι → σ) where
  state : Nat → σ
  action : Nat → ι
  next : ∀ m, state (m + 1) = step (state m) (action m)

namespace Run

/-- The run that takes the actions one after another. -/
def ofActions (step : σ → ι → σ) (s : σ) (action : Nat → ι) : Run step where
  state := Nat.rec s fun m s => step s (action m)
  action := action
  next _ := rfl

/-- A run with a step before it. -/
def cons (s : σ) (a : ι) (r : Run step) (h : step s a = r.state 0) : Run step where
  state
    | 0 => s
    | m + 1 => r.state m
  action
    | 0 => a
    | m + 1 => r.action m
  next
    | 0 => h.symm
    | m + 1 => r.next m

/-- A run with a schedule before it. -/
def append (r : Run step) : (s : σ) → (schedule : List ι) → run step s schedule = r.state 0 →
    { r' : Run step // r'.state 0 = s }
  | _, [], h => ⟨r, h.symm⟩
  | s, a :: schedule, h =>
    let rest := append r (step s a) schedule h
    ⟨cons s a rest.1 rest.2.symm, rfl⟩

variable {s : σ} {sched : List ι} {P : σ → Prop} {m : Nat}

variable (r : Run step) (h : run step s sched = r.state 0)

theorem append_state (m : Nat) : (append r s sched h).1.state (m + sched.length) = r.state m := by
  induction sched generalizing s with
  | nil => rfl
  | cons a sched ih => exact ih h

theorem append_action (m : Nat) :
    (append r s sched h).1.action (m + sched.length) = r.action m := by
  induction sched generalizing s with
  | nil => rfl
  | cons a sched ih => exact ih h

theorem append_from (hr : ∀ m, P (r.state m)) :
    ∀ m ≥ sched.length, P ((append r s sched h).1.state m) := by
  intro m hm
  rw [← Nat.sub_add_cancel hm, append_state]
  exact hr _

theorem append_all {good} (hs : AllSteps step good s sched)
    (hr : ∀ m, good (r.state m) (r.action m)) (m : Nat) :
    good ((append r s sched h).1.state m) ((append r s sched h).1.action m) := by
  induction sched generalizing s m with
  | nil => exact hr m
  | cons a sched ih =>
    cases m with
    | zero => exact hs.1
    | succ m => exact ih h hs.2 m

theorem always (hm : P (r.state m))
    (hs : ∀ k ≥ m, P (r.state k) → P (step (r.state k) (r.action k))) : ∀ k ≥ m, P (r.state k) := by
  intro k hk
  induction k, hk using Nat.le_induction with
  | base => exact hm
  | succ k hk ih =>
    rw [r.next]
    exact hs k hk ih

theorem keeps_unless {Q : σ → Prop} (hm : P (r.state m))
    (hs : ∀ k ≥ m, P (r.state k) → Q (r.state (k + 1)) ∨ P (r.state (k + 1))) :
    ∀ k ≥ m, (∃ l ≥ m, Q (r.state l)) ∨ P (r.state k) := by
  intro k hk
  induction k, hk using Nat.le_induction with
  | base => exact .inr hm
  | succ k hk ih =>
    obtain hg | hP := ih
    · exact .inl hg
    · obtain hQ | hP' := hs k hk hP
      · exact .inl ⟨k + 1, Nat.le_succ_of_le hk, hQ⟩
      · exact .inr hP'

theorem later {Q : Nat → Prop} {k} (hk : m ≤ k) (h : ∃ l ≥ k, Q l) : ∃ l ≥ m, Q l :=
  h.imp fun _ hl => hl.imp_left (Nat.le_trans hk)

/-- Whenever `P` holds, `Q` holds then or later. -/
def LeadsTo (r : Run step) (P Q : σ → Prop) : Prop := ∀ m, P (r.state m) → ∃ k ≥ m, Q (r.state k)

/-- Time and again the actor moves or is not able to. -/
def Fair (r : Run step) (actor : ι → Option α) (enabled : σ → α → Prop) (a : α) : Prop :=
  ∀ m, ∃ k ≥ m, actor (r.action k) = some a ∨ ¬enabled (r.state k) a

theorem Fair.append {actor enabled} {a : α} {r}
    (hf : r.Fair actor enabled a) (h : run step s sched = r.state 0) :
    (Run.append r s sched h).1.Fair actor enabled a := by
  intro m
  obtain ⟨k, hk, hm⟩ := hf m
  refine ⟨k + sched.length, Nat.le_trans hk (Nat.le_add_right ..), ?_⟩
  rw [append_action, append_state]
  exact hm

theorem Fair.eventually {actor : ι → Option α} {enabled a} {r : Run step}
    (hf : r.Fair actor enabled a) {P Q : σ → Prop} (rank : σ → Nat) (hm : P (r.state m))
    (he : ∀ k ≥ m, P (r.state k) → enabled (r.state k) a)
    (hs : ∀ k ≥ m, P (r.state k) → Q (r.state (k + 1)) ∨
      (P (r.state (k + 1)) ∧ rank (r.state (k + 1)) ≤ rank (r.state k) ∧
        (actor (r.action k) = some a → rank (r.state (k + 1)) < rank (r.state k)))) :
    ∃ k ≥ m, Q (r.state k) := by
  induction hr : rank (r.state m) using Nat.strong_induction_on generalizing m with
  | _ bound ih =>
  subst hr
  -- up to the next move of the actor the goal is reached, or the rank is no higher
  have hke := r.keeps_unless (Q := Q) (P := fun s => P s ∧ rank s ≤ rank (r.state m))
    ⟨hm, Nat.le_refl _⟩ (by
      intro k hk ⟨hP, hle⟩
      obtain hQ | ⟨hP', hle', -⟩ := hs k hk hP
      · exact .inl hQ
      · exact .inr ⟨hP', Nat.le_trans hle' hle⟩)
  obtain ⟨l, hl, hmo⟩ := hf m
  obtain hg | ⟨hP, hle⟩ := hke l hl
  · exact hg
  · have ha := hmo.resolve_right (not_not_intro (he l hl hP))
    obtain hQ | ⟨hP', -, hlt⟩ := hs l hl hP
    · exact ⟨l + 1, Nat.le_succ_of_le hl, hQ⟩
    · have hl' : m ≤ l + 1 := Nat.le_succ_of_le hl
      exact later hl' (ih _ (Nat.lt_of_lt_of_le (hlt ha) hle) hP'
        (fun k hk => he k (Nat.le_trans hl' hk)) (fun k hk => hs k (Nat.le_trans hl' hk)) rfl)

end Run
end Libparc.Transition
