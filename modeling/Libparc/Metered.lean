import Libparc.Exec

/-! # Computations with a meter

A metered computation counts what it does on a meter that its code does not read. It is
written next to the code whose cost it counts, and `Erases` says that the two are the
same but for the meter: so what is known of the code's result is known of the metered
result, and what the meter shows is what the code does. -/
namespace Libparc.Exec
open Prod

variable {ε μ α β σ ρ : Type}

abbrev Metered (μ ε α : Type) := StateT μ (Exec ε) α

/-- Without its meter, `x` is `y`. -/
def Erases (x : Metered μ ε α) (y : Exec ε α) : Prop := ∀ m, Prod.fst <$> x m = y

def meteredStep (step : σ → Metered μ ε (σ ⊕ ρ)) : σ × μ → Exec ε ((σ × μ) ⊕ (ρ × μ))
  | (s, m) => do
    match ← step s m with
    | (.inl s', m') => pure (.inl (s', m'))
    | (.inr r, m') => pure (.inr (r, m'))

/-- The loop with a metered body. -/
def meteredLoop (step : σ → Metered μ ε (σ ⊕ ρ)) (s : σ) : Metered μ ε ρ := fun m =>
  loop (meteredStep step) (s, m)

section
variable {step : σ → Metered μ ε (σ ⊕ ρ)} {s s' : σ} {m m' : μ} {r : ρ}

theorem meteredStep_next (h : step s m = pure (.inl s', m')) :
    meteredStep step (s, m) = pure (.inl (s', m')) := by
  rw [meteredStep, h, pure_bind]

theorem meteredStep_done (h : step s m = pure (.inr r, m')) :
    meteredStep step (s, m) = pure (.inr (r, m')) := by
  rw [meteredStep, h, pure_bind]

theorem meteredStep_error {e} (h : step s m = throw e) : meteredStep step (s, m) = throw e := by
  rw [meteredStep, h]
  rfl

theorem meteredLoop_invariant (Inv : σ → μ → Prop) (Post : ρ → μ → Prop)
    (body : ∀ s m, Inv s m → (∃ r m', step s m = pure (.inr r, m') ∧ Post r m') ∨
      ∃ s' m', step s m = pure (.inl s', m') ∧ Inv s' m')
    (hs : Inv s m) (h : meteredLoop step s m = pure (r, m')) : Post r m' := by
  refine loop_invariant (fun st => Inv st.1 st.2) (fun res => Post res.1 res.2) ?_ hs h
  intro ⟨s, m⟩ x hi hst
  obtain ⟨r, m1, hs, hp⟩ | ⟨s1, m1, hs, hi1⟩ := body s m hi
  · cases (meteredStep_done hs).symm.trans hst
    exact hp
  · cases (meteredStep_next hs).symm.trans hst
    exact hi1

theorem metered_bind_eq_pure {x} {f : α → Metered μ ε β} {m m' b} :
    (x >>= f) m = pure (b, m') ↔ ∃ a m1, x m = pure (a, m1) ∧ f a m1 = pure (b, m') := by
  refine bind_eq_pure.trans ⟨fun h => ?_, fun h => ?_⟩
  · obtain ⟨⟨a, m1⟩, hx, hf⟩ := h
    exact ⟨a, m1, hx, hf⟩
  · obtain ⟨a, m1, hx, hf⟩ := h
    exact ⟨(a, m1), hx, hf⟩

theorem metered_lift_eq_pure {y : Exec ε α} {m m' a} :
    (liftM y : Metered μ ε α) m = pure (a, m') ↔ y = pure a ∧ m' = m := by
  rcases y with _ | e | b
  · exact ⟨nofun, nofun⟩
  · exact ⟨nofun, nofun⟩
  · refine ⟨fun h => ?_, fun ⟨h, hm⟩ => ?_⟩
    · cases h
      exact ⟨rfl, rfl⟩
    · cases h
      cases hm
      rfl

theorem metered_lift_bind_eq_pure {y : Exec ε α} {f : α → Metered μ ε β} {m m' b} :
    (liftM y >>= f) m = pure (b, m') ↔ ∃ a, y = pure a ∧ f a m = pure (b, m') := by
  refine metered_bind_eq_pure.trans ⟨fun h => ?_, fun h => ?_⟩
  · obtain ⟨a, m1, hl, hf⟩ := h
    obtain ⟨hy, rfl⟩ := metered_lift_eq_pure.mp hl
    exact ⟨a, hy, hf⟩
  · obtain ⟨a, hy, hf⟩ := h
    exact ⟨a, m, metered_lift_eq_pure.mpr ⟨hy, rfl⟩, hf⟩

theorem metered_pure_eq_pure {m m' a b} :
    (pure a : Metered μ ε α) m = pure (b, m') ↔ a = b ∧ m = m' := by
  refine pure_inj.trans ?_
  rw [mk.injEq]

end

namespace Erases

variable {x : Metered μ ε α} {y : Exec ε α}

theorem run (h : Erases x y) {a} (hy : y = pure a) (m : μ) : ∃ m', x m = pure (a, m') := by
  have hm := h m
  rw [hy] at hm
  rcases hx : x m with _ | e | ⟨b, m'⟩
  · rw [hx] at hm
    cases hm
  · rw [hx] at hm
    cases hm
  · rw [hx] at hm
    cases hm
    exact ⟨m', rfl⟩

theorem run_error (h : Erases x y) {e} (hy : y = throw e) (m : μ) : x m = throw e := by
  have hm := h m
  rw [hy] at hm
  rcases hx : x m with _ | e' | ⟨b, m'⟩
  · rw [hx] at hm
    cases hm
  · rw [hx] at hm
    cases hm
    rfl
  · rw [hx] at hm
    cases hm

theorem of_run (h : Erases x y) {m m' a} (hx : x m = pure (a, m')) : y = pure a := by
  rw [← h m, hx]
  rfl

theorem pure (a : α) : Erases (Pure.pure a : Metered μ ε α) (Pure.pure a) := fun _ => rfl

theorem lift (y : Exec ε α) : Erases (μ := μ) (liftM y) y := by
  intro m
  rcases y with _ | e | a
  all_goals rfl

theorem bind {f} {g : α → Exec ε β} (h : Erases x y)
    (hf : ∀ a, Erases (f a) (g a)) : Erases (x >>= f) (y >>= g) := by
  intro m
  have hm := h m
  subst hm
  show fst <$> (x m >>= fun p => f p.1 p.2) = _
  rcases x m with _ | e | ⟨a, m'⟩
  · rfl
  · rfl
  · exact hf a m'

theorem bind_pure {f a} {z : Exec ε β} (h : Erases x (Pure.pure a))
    (hf : Erases (f a) z) : Erases (x >>= f) z := by
  intro m
  obtain ⟨m', hm'⟩ := h.run rfl m
  show fst <$> (x m >>= fun p => f p.1 p.2) = z
  rw [hm', pure_bind]
  exact hf m'

theorem tick (f : μ → μ) (h : Erases x y) : Erases (modify f >>= fun _ => x) y := fun m => h (f m)

section
variable {step' : σ → Metered μ ε (σ ⊕ ρ)} {step : σ → Exec ε (σ ⊕ ρ)}

variable (h : ∀ s, Erases (step' s) (step s)) (s : σ)
include h

theorem loop_of_some (x : Except ε ρ)
    (hx : Exec.loop step s = some x) : ∀ m, fst <$> meteredLoop step' s m = some x := by
  refine loop_induction (fun s x => ∀ m, fst <$> meteredLoop step' s m = some x) ?_ ?_ ?_ hx
  · intro s e hs m
    rw [meteredLoop, loop_error (meteredStep_error ((h s).run_error hs m))]
    rfl
  · intro s s' x hs ih m
    obtain ⟨m', hm'⟩ := (h s).run hs m
    rw [meteredLoop, loop_next (meteredStep_next hm')]
    exact ih m'
  · intro s r hs m
    obtain ⟨m', hm'⟩ := (h s).run hs m
    rw [meteredLoop, loop_done (meteredStep_done hm')]
    rfl

theorem map_meteredStep (m : μ) :
    Sum.map fst fst <$> meteredStep step' (s, m) = step s := by
  rw [← h s m, meteredStep]
  rcases step' s m with _ | e | ⟨_ | _, _⟩
  all_goals rfl

theorem loop_isSome (m : μ) (x : Except ε (ρ × μ))
    (hx : meteredLoop step' s m = some x) : ∃ y, Exec.loop step s = some y := by
  have hst (st : σ × μ) := (map_meteredStep h st.1 st.2).symm
  refine loop_induction (fun st _ => ∃ y, Exec.loop step st.1 = some y) ?_ ?_ ?_ hx
  · exact fun st e hs => ⟨.error e, loop_error ((hst st).trans (congrArg _ hs))⟩
  · intro st st' x hs ⟨y, hy⟩
    exact ⟨y, (loop_next ((hst st).trans (congrArg _ hs))).trans hy⟩
  · exact fun st r hs => ⟨.ok r.1, loop_done ((hst st).trans (congrArg _ hs))⟩

/-- **A loop whose body erases to a body** erases to the loop. -/
theorem loop : Erases (meteredLoop step' s) (Exec.loop step s) := by
  intro m
  rcases hx : Exec.loop step s with _ | x
  · rcases hy : meteredLoop step' s m with _ | y
    · rfl
    · obtain ⟨z, hz⟩ := loop_isSome h s m y hy
      rw [hx] at hz
      cases hz
  · exact loop_of_some h s x hx m

end

end Erases

end Libparc.Exec
