import Libparc.Exec

/-! # Calls held against a specification

A component has a state and calls that change it; its specification has a state of its own and
says, for each call, the result and the state after it, or that the call is to be refused. The
component conforms in a run if every call gives the result of the specification and leaves a
state that stands for the specification's, and a call that is to be refused stops the run with
an accepted error. Where only some calls do so, a run conforms exactly if it makes no other
calls (`conforms_iff`). -/
namespace Libparc.Conformance

variable {ε σ τ ι ρ : Type}

/-- Every call of the run does what the specification says. -/
def Conforms (run : σ → ι → Exec ε (ρ × σ)) (spec : τ → ι → Option (ρ × τ)) (R : σ → τ → Prop)
    (refuses : ε → Prop) : σ → τ → List ι → Prop
  | _, _, [] => True
  | s, t, call :: calls =>
    match spec t call with
    | some (r, t') => ∃ s', run s call = pure (r, s') ∧ R s' t' ∧
        Conforms run spec R refuses s' t' calls
    | none => ∃ e, run s call = throw e ∧ refuses e

/-- Every call of the run is a safe one, in the state of the specification it is made in. -/
def SafeCalls (spec : τ → ι → Option (ρ × τ)) (safe : τ → ι → Prop) : τ → List ι → Prop
  | _, [] => True
  | t, call :: calls => safe t call ∧
      ∀ r t', spec t call = some (r, t') → SafeCalls spec safe t' calls

variable {run : σ → ι → Exec ε (ρ × σ)} {spec : τ → ι → Option (ρ × τ)} {R : σ → τ → Prop}
  {refuses : ε → Prop} {safe : τ → ι → Prop}

theorem conforms_iff (hs : ∀ s t call r t', R s t → safe t call → spec t call = some (r, t') →
      ∃ s', run s call = pure (r, s') ∧ R s' t')
    (hn : ∀ s t call, R s t → safe t call → spec t call = none →
      ∃ e, run s call = throw e ∧ refuses e) (hb : ∀ s t call, R s t → ¬ safe t call →
      ∃ r t', spec t call = some (r, t') ∧ ∀ s', run s call = pure (r, s') → ¬ R s' t')
    {s t} (h : R s t) (calls : List ι) :
    Conforms run spec R refuses s t calls ↔ SafeCalls spec safe t calls := by
  induction calls generalizing s t with
  | nil => exact Iff.rfl
  | cons call calls ih =>
    unfold Conforms SafeCalls
    by_cases hsa : safe t call
    · cases hsp : spec t call with
      | none => simpa [hsa] using hn s t call h hsa hsp
      | some res =>
        obtain ⟨r, t'⟩ := res
        obtain ⟨s', hr, h'⟩ := hs s t call r t' h hsa hsp
        constructor
        · intro ⟨s'', hr', _, hc⟩
          rw [hr] at hr'
          cases hr'
          refine ⟨hsa, fun r1 t1 heq => ?_⟩
          cases heq
          exact (ih h').mp hc
        · intro ⟨_, hc⟩
          exact ⟨s', hr, h', (ih h').mpr (hc r t' rfl)⟩
    · obtain ⟨r, t', hsp, hw⟩ := hb s t call h hsa
      rw [hsp]
      constructor
      · intro ⟨s', hr, h', _⟩
        exact absurd h' (hw s' hr)
      · intro ⟨hs', _⟩
        exact absurd hs' hsa

end Libparc.Conformance
