import Mathlib.Tactic.Common

/-! # Computations that return, stop with an error, or run forever

A body of imperative code is a value of `Exec ε α`: it returns an `α`, stops
with an error of `ε`, or never returns (`none`). A `while` loop is `loop` of
its body, which either goes round again with a new state or leaves the loop
with a result. The rules below are the three a loop needs: what holds of its
result (`loop_invariant`), that it has one (`loop_variant`), and that it has
none (`loop_diverges`). -/
namespace Libparc

/-- A computation that returns a value, stops with an error, or never returns. -/
abbrev Exec (ε α : Type) := ExceptT ε Option α

namespace Exec

variable {ε α β σ ρ : Type}

/-- The computation comes to an end with a value. -/
def Returns (x : Exec ε α) : Prop := ∃ a, x = pure a

/-- The computation never comes to an end. -/
def Diverges (x : Exec ε α) : Prop := x = none

theorem diverges_of {x : Exec ε α} (hp : ¬ Returns x) (ht : ∀ e, x ≠ throw e) : Diverges x := by
  rcases x with _ | e | a
  · rfl
  · exact absurd rfl (ht e)
  · exact absurd ⟨a, rfl⟩ hp

theorem pure_inj {a b} : (pure a : Exec ε α) = pure b ↔ a = b := by
  constructor
  · intro h; cases h; rfl
  · rintro rfl; rfl

variable {e : ε} {step : σ → Exec ε (σ ⊕ ρ)} {s : σ}

theorem throw_ne_pure {a} : (throw e : Exec ε α) ≠ pure a := by
  intro h; cases h

theorem bind_eq_pure {x} {f : α → Exec ε β} {b} :
    (x >>= f) = pure b ↔ ∃ a, x = pure a ∧ f a = pure b := by
  rcases x with _ | e | a
  · exact ⟨fun h => (by cases h), fun ⟨_, h, _⟩ => (by cases h)⟩
  · exact ⟨fun h => (by cases h), fun ⟨_, h, _⟩ => (by cases h)⟩
  · exact ⟨fun h => ⟨a, rfl, h⟩, fun ⟨_, h, hf⟩ => (by cases h; exact hf)⟩

theorem bind_ne_throw {x} {f : α → Exec ε β} (hx : x ≠ throw e) (hf : ∀ a, f a ≠ throw e) :
    (x >>= f) ≠ throw e := by
  rcases x with _ | e' | a
  · intro h; cases h
  · intro h; cases h; exact hx rfl
  · exact hf a

theorem pure_ne_throw {a} : (pure a : Exec ε α) ≠ throw e := by
  intro h; cases h

/-- Go on from what a turn of the body gave until it leaves the loop (`.inr`). -/
def iterate (step : σ → Exec ε (σ ⊕ ρ)) (turn : Exec ε (σ ⊕ ρ)) : Option (Except ε ρ) :=
  match turn with
  | none => none
  | some (.error e) => some (.error e)
  | some (.ok (.inl s)) => step s |>.iterate step
  | some (.ok (.inr r)) => some (.ok r)
partial_fixpoint

/-- The loop with body `step`, as a computation. -/
def loop (step : σ → Exec ε (σ ⊕ ρ)) (s : σ) : Exec ε ρ := iterate step (step s)

theorem loop_eq (s : σ) : loop step s = step s >>= Sum.elim (loop step) pure := by
  unfold loop
  rw [iterate.eq_def]
  rcases step s with _ | e | s' | r <;> rfl

theorem loop_next {s'} (h : step s = pure (.inl s')) : loop step s = loop step s' := by
  rw [loop_eq, h]
  rfl

theorem loop_done {r} (h : step s = pure (.inr r)) : loop step s = pure r := by
  rw [loop_eq, h]
  rfl

theorem loop_error (h : step s = throw e) : loop step s = throw e := by
  rw [loop_eq, h]
  rfl

/-- Induction on the turns of a loop that comes to an end. -/
theorem loop_induction (P : σ → Except ε ρ → Prop)
    (error : ∀ s e, step s = throw e → P s (.error e))
    (next : ∀ s s' x, step s = pure (.inl s') → P s' x → P s x)
    (done : ∀ s r, step s = pure (.inr r) → P s (.ok r)) {x} (h : loop step s = some x) :
    P s x := by
  refine iterate.partial_correctness step (fun turn x => ∀ s, step s = turn → P s x) ?_ _ x h s rfl
  rintro rec ih (_ | e | s' | r) x hx s hs
  · cases hx
  · cases hx
    exact error s e hs
  · exact next s s' x hs (ih (step s') x hx s' rfl)
  · cases hx
    exact done s r hs

theorem loop_invariant (Inv : σ → Prop) (Post : ρ → Prop)
    (turn : ∀ s x, Inv s → step s = pure x → Sum.elim Inv Post x) {r} (hs : Inv s)
    (h : loop step s = pure r) : Post r := by
  refine loop_induction (fun s x => Inv s → ∀ r, x = .ok r → Post r) ?_ ?_ ?_ h hs r rfl
  · nofun
  · exact fun s s' x hst ih hs => ih (turn s _ hs hst)
  · intro s r hst hs r' hr
    cases hr
    exact turn s _ hs hst

theorem loop_ne_throw (hst : ∀ s e, step s ≠ throw e) (s : σ) (e : ε) : loop step s ≠ throw e := by
  intro h
  refine loop_induction (fun _ x => ∀ e, x ≠ .error e) ?_ ?_ ?_ h e rfl
  · exact fun s e hs => absurd hs (hst s e)
  · exact fun _ _ _ _ ih => ih
  · nofun

theorem loop_variant (Inv : Nat → σ → Prop) (Post : ρ → Prop)
    (body : ∀ m s, Inv m s → (∃ r, step s = pure (.inr r) ∧ Post r) ∨
      ∃ s' m', step s = pure (.inl s') ∧ Inv m' s' ∧ m' < m)
    {m} (hs : Inv m s) : ∃ r, loop step s = pure r ∧ Post r := by
  induction m using Nat.strongRecOn generalizing s with
  | ind m ih =>
    rcases body m s hs with ⟨r, hr, hp⟩ | ⟨s', m', hs', hi, hlt⟩
    · exact ⟨r, loop_done hr, hp⟩
    · obtain ⟨r, hr, hp⟩ := ih m' hlt hi
      exact ⟨r, (loop_next hs').trans hr, hp⟩

theorem loop_returns (Inv : Nat → σ → Prop) (body : ∀ m s, Inv m s → (∃ r, step s = pure (.inr r)) ∨
      ∃ s' m', step s = pure (.inl s') ∧ Inv m' s' ∧ m' < m)
    {m} (hs : Inv m s) : Returns (loop step s) := by
  obtain ⟨r, hr, -⟩ := loop_variant Inv (fun _ => True)
    (fun m s h => (body m s h).imp_left fun ⟨r, hr⟩ => ⟨r, hr, trivial⟩) hs
  exact ⟨r, hr⟩

theorem loop_diverges (Inv : σ → Prop) (body : ∀ s, Inv s → ∃ s', step s = pure (.inl s') ∧ Inv s')
    (hs : Inv s) : ¬ Returns (loop step s) := by
  rintro ⟨r, hr⟩
  refine loop_invariant Inv (fun _ => False) (fun s x hs h => ?_) hs hr
  obtain ⟨s', hs', hi⟩ := body s hs
  cases hs'.symm.trans h
  exact hi

end Exec
end Libparc
