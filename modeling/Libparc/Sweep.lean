import Libparc.Exec

/-! # Going over an object with an iterator that removes

A caller opens an iterator on an object, and while it has a next element asks for
it and has it removed or not. `Lawful` says what one turn of this does, with the
items that were kept before the iterator's place and those that come after it;
then the whole of it visits every item once, in order, and leaves those that were
not chosen (`sweep_eq`). -/
namespace Libparc.Sweep
open List

variable {ε χ σ α β : Type}

/-- The functions of an iterator. They may change its state, and a removal the
object. -/
structure Interface (ε χ σ α : Type) where
  init : χ → Exec ε σ
  hasNext : χ → σ → Exec ε (Bool × σ)
  next : χ → σ → Exec ε (σ × α)
  remove : χ → σ → Exec ε (χ × σ)

/-- A turn, with the elements that were visited before it. -/
def body (I : Interface ε χ σ α) (choose : Nat → Bool) :
    χ × σ × List α → Exec ε ((χ × σ × List α) ⊕ (χ × σ × List α))
  | (object, state, visited) => do
    let (more, state) ← I.hasNext object state
    if more then do
      let (state, element) ← I.next object state
      if choose visited.length then do
        let (object, state) ← I.remove object state
        pure (.inl (object, state, visited ++ [element]))
      else pure (.inl (object, state, visited ++ [element]))
    else pure (.inr (object, state, visited))

/-- Visit the elements, and remove those at the chosen places. -/
def sweep (I : Interface ε χ σ α) (choose : Nat → Bool) (object : χ) :
    Exec ε (χ × σ × List α) := do
  let state ← I.init object
  Exec.loop (body I choose) (object, state, [])

/-- The items that are left of those from place `k` on. -/
def unchosen (choose : Nat → Bool) : Nat → List β → List β
  | _, [] => []
  | k, x :: xs => if choose k then unchosen choose (k + 1) xs else x :: unchosen choose (k + 1) xs

theorem map_unchosen (choose : Nat → Bool) (view : β → α) (k : Nat) (xs : List β) :
    (unchosen choose k xs).map view = unchosen choose k (xs.map view) := by
  induction xs generalizing k with
  | nil => rfl
  | cons x xs ih =>
    rw [map_cons, unchosen, unchosen]
    split
    · exact ih (k + 1)
    · rw [map_cons, ih]

/-- What the functions do between the items `kept` and the items `rest`. -/
structure Lawful (I : Interface ε χ σ α) (view : β → α)
    (Between : List β → List β → χ → σ → Prop) : Prop where
  done : ∀ {kept object state}, Between kept [] object state →
    ∃ state', I.hasNext object state = pure (false, state')
  step : ∀ {kept x rest object state}, Between kept (x :: rest) object state →
    ∃ state1 state2, I.hasNext object state = pure (true, state1) ∧
      I.next object state1 = pure (state2, view x) ∧
      Between (kept ++ [x]) rest object state2 ∧
      ∃ object' state3, I.remove object state2 = pure (object', state3) ∧
        Between kept rest object' state3

variable {I : Interface ε χ σ α} {view : β → α} {Between : List β → List β → χ → σ → Prop}
  (h : Lawful I view Between) (choose : Nat → Bool)
include h

theorem body_step {kept rest x o st} (hb : Between kept (x :: rest) o st) (vis : List α) :
    ∃ o' state', body I choose (o, st, vis) = pure (.inl (o', state', vis ++ [view x])) ∧
      Between (if choose vis.length then kept else kept ++ [x]) rest o' state' := by
  obtain ⟨st1, st2, hhn, hn, hk, o', st3, hr, hre⟩ := h.step hb
  cases hc : choose vis.length with
  | true =>
    refine ⟨o', st3, ?_, hre⟩
    simp only [body, hhn, hn, hr, hc, pure_bind, if_true]
  | false =>
    refine ⟨o, st2, ?_, hk⟩
    simp only [body, hhn, hn, hc, pure_bind, if_true, Bool.false_eq_true, if_false]

theorem loop_eq (rest : List β) : ∀ {kept o st} (vis : List α),
    Between kept rest o st → ∃ o' st0 st', Exec.loop (body I choose) (o, st, vis) =
        pure (o', st', vis ++ rest.map view) ∧
      Between (kept ++ unchosen choose vis.length rest) [] o' st0 ∧
      I.hasNext o' st0 = pure (false, st') := by
  induction rest with
  | nil =>
    intro kept o st vis hb
    obtain ⟨st', hhn⟩ := h.done hb
    refine ⟨o, st, st', ?_, by rwa [unchosen, append_nil], hhn⟩
    rw [map_nil, append_nil]
    refine Exec.loop_done ?_
    simp only [body, hhn, pure_bind, Bool.false_eq_true, if_false]
  | cons x rest ih =>
    intro kept o st vis hb
    obtain ⟨o1, st1, hbo, hb1⟩ := body_step h choose hb vis
    obtain ⟨o', st0, st', hl, he, hhn⟩ := ih (vis ++ [view x]) hb1
    refine ⟨o', st0, st', ?_, ?_, hhn⟩
    · rw [Exec.loop_next hbo, hl, map_cons, append_assoc, singleton_append]
    · rw [length_append, length_singleton] at he
      rw [unchosen]
      split at he
      · rename_i hc
        rwa [if_pos hc]
      · rename_i hc
        rwa [if_neg hc, ← singleton_append, ← append_assoc]

/-- **Every item is visited once, in order, and those that were not chosen are left**
when the iterator has no next one. -/
theorem sweep_eq {o st items} (hi : I.init o = pure st) (hb : Between [] items o st) :
    ∃ o' st0 st', sweep I choose o = pure (o', st', items.map view) ∧
      Between (unchosen choose 0 items) [] o' st0 ∧ I.hasNext o' st0 = pure (false, st') := by
  rw [sweep, hi, pure_bind]
  exact loop_eq h choose items [] hb

end Libparc.Sweep
