import Libparc.Exec
import Mathlib.Algebra.Group.Nat.Defs

/-! # Loops with a counter of 32 bits

`for (unsigned int i = 0; i < limit && !stop; i++)`, where the limit may not fit into
the counter. The loop comes to an end if it is left, for the limit or for the test,
before the counter wraps. If neither happens, it does not return. -/
namespace Libparc.Exec

variable {ε σ : Type} {lm : Nat} {stop : σ → Bool} {body : Nat → σ → Exec ε σ} {s : σ}

def countedBody (limit : Nat) (stop : σ → Bool) (body : Nat → σ → Exec ε σ) :
    Nat × σ → Exec ε (Nat × σ ⊕ σ)
  | (i, s) =>
    if i < limit ∧ stop s = false then do
      let s ← body i s
      pure (.inl ((i + 1) % 2 ^ 32, s))
    else pure (.inr s)

def counted (limit : Nat) (stop : σ → Bool) (body : Nat → σ → Exec ε σ) (s : σ) : Exec ε σ :=
  loop (countedBody limit stop body) (0, s)

theorem countedBody_next {i s'} (hi : i < lm) (hs : stop s = false) (hbody : body i s = pure s') :
    countedBody lm stop body (i, s) = pure (.inl ((i + 1) % 2 ^ 32, s')) := by
  rw [countedBody, if_pos ⟨hi, hs⟩, hbody]
  rfl

theorem countedBody_done {i} (h : lm ≤ i ∨ stop s = true) :
    countedBody lm stop body (i, s) = pure (.inr s) := by
  refine if_neg fun hgo => ?_
  obtain hl | hs := h
  · exact absurd hgo.1 (Nat.not_lt_of_le hl)
  · rw [hs] at hgo
    cases hgo.2

theorem counted_returns (Inv : Nat → σ → Prop) {bound} (hb : bound ≤ 2 ^ 32)
    (hbody : ∀ i < bound, ∀ s, Inv i s → i < lm → stop s = false →
      ∃ s', body i s = pure s' ∧ Inv (i + 1) s')
    (he : ∀ s, Inv bound s → lm ≤ bound % 2 ^ 32 ∨ stop s = true) (hs : Inv 0 s) :
    ∃ s', counted lm stop body s = pure s' ∧ ∃ i ≤ bound, Inv i s' ∧ (lm ≤ i ∨ stop s' = true) := by
  refine loop_variant (fun m x => ∃ i ≤ bound, x.1 = i % 2 ^ 32 ∧ Inv i x.2 ∧ m = bound - i)
    (fun s' => ∃ i ≤ bound, Inv i s' ∧ (lm ≤ i ∨ stop s' = true)) ?_
    ⟨0, Nat.zero_le _, rfl, hs, rfl⟩
  intro m ⟨counter, s⟩ ⟨i, hi, hc, hin, hm⟩
  subst hc hm
  by_cases hgo : i % 2 ^ 32 < lm ∧ stop s = false
  · -- the bound is not reached, so the counter has not wrapped
    have hlt : i < bound := by
      refine Nat.lt_of_le_of_ne hi fun heq => ?_
      subst heq
      obtain hl | hst := he s hin
      · exact absurd hgo.1 (Nat.not_lt_of_le hl)
      · rw [hst] at hgo
        cases hgo.2
    have hmo : i % 2 ^ 32 = i := Nat.mod_eq_of_lt (Nat.lt_of_lt_of_le hlt hb)
    rw [hmo] at hgo ⊢
    obtain ⟨s', hs', hi'⟩ := hbody i hlt s hin hgo.1 hgo.2
    exact .inr ⟨_, bound - (i + 1), countedBody_next hgo.1 hgo.2 hs', ⟨i + 1, hlt, rfl, hi', rfl⟩,
      by omega⟩
  · have hle : lm ≤ i % 2 ^ 32 ∨ stop s = true := by
      by_cases hl : i % 2 ^ 32 < lm
      · exact .inr (eq_true_of_ne_false fun hst => hgo ⟨hl, hst⟩)
      · exact .inl (Nat.le_of_not_lt hl)
    refine .inl ⟨s, countedBody_done hle, i, hi, hin, ?_⟩
    exact hle.imp_left fun h => Nat.le_trans h (Nat.mod_le _ _)

theorem counted_diverges (Inv : σ → Prop) (hl : 2 ^ 32 ≤ lm)
    (hbody : ∀ i < 2 ^ 32, ∀ s, Inv s → stop s = false ∧ ∃ s', body i s = pure s' ∧ Inv s')
    (hs : Inv s) : ¬Returns (counted lm stop body s) := by
  refine loop_diverges (fun x => x.1 < 2 ^ 32 ∧ Inv x.2) ?_ ⟨Nat.two_pow_pos 32, hs⟩
  intro ⟨i, s⟩ ⟨hi, hin⟩
  obtain ⟨hst, s', hs', hi'⟩ := hbody i hi s hin
  exact ⟨_, countedBody_next (Nat.lt_of_lt_of_le hi hl) hst hs',
    Nat.mod_lt _ (Nat.two_pow_pos 32), hi'⟩

/-! ## Searching

`for (i = 0; i < limit && result; i++) result = test(i)`. -/

variable {lim : Nat} {body : Nat → Bool → Exec ε Bool} {test : Nat → Bool}
  (hb : ∀ i < lim, ∀ result, body i result = pure (test i))
include hb

theorem counted_all (hl : lim < 2 ^ 32) (ha : ∀ i < lim, test i = true) :
    counted lim (!·) body true = pure true := by
  have hle : ∃ result, counted lim (!·) body true = pure result ∧
      ∃ i ≤ lim, result = true ∧ (lim ≤ i ∨ (!result) = true) :=
    counted_returns (fun _ result => result = true) (Nat.le_of_lt hl)
      (fun i hi result _ _ _ => ⟨_, hb i hi result, ha i hi⟩)
      (fun _ _ => .inl (Nat.le_of_eq (Nat.mod_eq_of_lt hl).symm)) rfl
  obtain ⟨result, hlo, i, -, hr, -⟩ := hle
  rw [hlo, hr]

theorem counted_fails {i} (hi : i < lim) (hs : i < 2 ^ 32) (hf : test i = false) :
    counted lim (!·) body true = pure false := by
  have hl : ∃ result, counted lim (!·) body true = pure result ∧
      ∃ j ≤ i + 1, (result = true → j ≤ i) ∧ (lim ≤ j ∨ (!result) = true) := by
    refine counted_returns (fun j result => result = true → j ≤ i) hs ?_ ?_ fun _ => Nat.zero_le i
    · intro j hj result hr hli hgo
      refine ⟨_, hb j hli result, fun ht => ?_⟩
      have hne : j ≠ i := by
        intro heq
        rw [heq, hf] at ht
        cases ht
      omega
    · intro result hr
      cases result with
      | false => exact .inr rfl
      | true => exact absurd (hr rfl) (Nat.not_succ_le_self i)
  obtain ⟨result, hlo, j, -, hr, he⟩ := hl
  cases result with
  | false => exact hlo
  | true =>
    obtain hli | hst := he
    · exact absurd (Nat.lt_of_lt_of_le hi hli) (Nat.not_lt_of_le (hr rfl))
    · cases hst

theorem counted_all_diverges (hl : 2 ^ 32 ≤ lim) (ha : ∀ i < 2 ^ 32, test i = true) :
    ¬Returns (counted lim (!·) body true) := by
  refine counted_diverges (fun result => result = true) hl ?_ rfl
  intro i hi result hr
  exact ⟨by rw [hr]; rfl, _, hb i (Nat.lt_of_lt_of_le hi hl) result, ha i hi⟩

end Libparc.Exec
