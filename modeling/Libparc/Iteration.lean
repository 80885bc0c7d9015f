import Libparc.Exec

/-! # Iterators over one object

Several iterators are open on one object. Each has a state of its own, and a call of one of them
may change the object too, which all of them share. A history is any sequence of openings and
calls. What holds of the object, and of each iterator by itself, whatever the object is like
between its calls, holds after every history (`run_invariant`); an iterator whose calls return
and whose number of elements is bounded comes to its end (`exists_exhausted`). -/
namespace Libparc.Iteration
open List Exec

variable {ε χ κ σ α : Type}

/-- The functions of an iterator: `κ` says of which kind the iterator is to be. -/
structure Interface (ε χ κ σ α : Type) where
  init : κ → χ → σ
  hasNext : σ → Bool
  next : χ → σ → Exec ε (χ × σ)
  element : χ → α

/-- An open iterator, with the object as it was when the iterator was opened and the elements
its calls have returned while it had a next one. -/
structure Iterator (χ κ σ α : Type) where
  kind : κ
  openedOn : χ
  state : σ
  elements : List α

structure Session (χ κ σ α : Type) where
  object : χ
  iterators : List (Iterator χ κ σ α)

inductive Event (κ : Type) where
  | create (kind : κ)
  | next (i : Nat)
  deriving DecidableEq

variable (I : Interface ε χ κ σ α)

def opened (object : χ) (kind : κ) : Iterator χ κ σ α :=
  ⟨kind, object, I.init kind object, []⟩

/-- The iterator after a call that has left this object and this state. -/
def Iterator.after (it : Iterator χ κ σ α) (object : χ) (state : σ) : Iterator χ κ σ α :=
  { it with
    state := state
    elements := if I.hasNext it.state then it.elements ++ [I.element object] else it.elements }

/-- There is nothing to call for an iterator that was never opened. -/
def Event.run (s : Session χ κ σ α) : Event κ → Exec ε (Session χ κ σ α)
  | .create kind => pure { s with iterators := s.iterators ++ [opened I s.object kind] }
  | .next i =>
    match s.iterators[i]? with
    | none => pure s
    | some it => do
      let (object, state) ← I.next s.object it.state
      pure ⟨object, s.iterators.set i (it.after I object state)⟩

def run (s : Session χ κ σ α) (history : List (Event κ)) : Exec ε (Session χ κ σ α) :=
  history.foldlM (Event.run I) s

/-- The invariant of the object says nothing of the iterators, and that of an iterator nothing of
the object or of the other iterators. -/
structure Holds (Inv : χ → Prop) (P : Iterator χ κ σ α → Prop) (s : Session χ κ σ α) : Prop where
  object : Inv s.object
  iterators : ∀ it ∈ s.iterators, P it

variable {I} {Inv : χ → Prop} {P : Iterator χ κ σ α → Prop} {s s' : Session χ κ σ α}

section
variable (hopen : ∀ o kind, Inv o → P (opened I o kind))
  (hn : ∀ o it o' st', Inv o → P it → I.next o it.state = pure (o', st') →
    Inv o' ∧ P (it.after I o' st'))
  (h : Holds Inv P s)
include hopen hn h

theorem event_invariant {event : Event κ} (hr : event.run I s = pure s') : Holds Inv P s' := by
  cases event with
  | create kind =>
    cases hr
    refine ⟨h.object, fun it hit => ?_⟩
    rcases mem_append.mp hit with hit | hit
    · exact h.iterators it hit
    · cases mem_singleton.mp hit
      exact hopen s.object kind h.object
  | next i =>
    cases hit : s.iterators[i]? with
    | none =>
      simp only [Event.run, hit] at hr
      cases hr
      exact h
    | some it =>
      simp only [Event.run, hit] at hr
      obtain ⟨⟨o', st'⟩, hc, hre⟩ := bind_eq_pure.mp hr
      cases hre
      obtain ⟨ho, ha⟩ := hn _ _ _ _ h.object (h.iterators it (mem_of_getElem? hit)) hc
      refine ⟨ho, fun it' hit' => ?_⟩
      rcases mem_or_eq_of_mem_set hit' with hold | rfl
      · exact h.iterators it' hold
      · exact ha

theorem run_invariant {hist : List (Event κ)} (hr : run I s hist = pure s') : Holds Inv P s' := by
  induction hist generalizing s with
  | nil =>
    cases hr
    exact h
  | cons event hist ih =>
    obtain ⟨s1, he, hre⟩ := bind_eq_pure.mp hr
    exact ih (event_invariant hopen hn h he) hre

end

theorem run_keeps {i : Nat} {it} (hit : s.iterators[i]? = some it)
    {hist} (hr : run I s hist = pure s') :
    ∃ it', s'.iterators[i]? = some it' ∧ it'.kind = it.kind ∧ it'.openedOn = it.openedOn := by
  induction hist generalizing s it with
  | nil =>
    cases hr
    exact ⟨it, hit, rfl, rfl⟩
  | cons event hist ih =>
    obtain ⟨s1, he, hre⟩ := bind_eq_pure.mp hr
    obtain ⟨it1, hit1, hk, hopened⟩ : ∃ it1, s1.iterators[i]? = some it1 ∧
        it1.kind = it.kind ∧ it1.openedOn = it.openedOn := by
      have hlt := (List.getElem?_eq_some_iff.mp hit).1
      cases event with
      | create kind =>
        cases he
        exact ⟨it, by rw [List.getElem?_append_left hlt, hit], rfl, rfl⟩
      | next j =>
        cases hj : s.iterators[j]? with
        | none =>
          simp only [Event.run, hj] at he
          cases he
          exact ⟨it, hit, rfl, rfl⟩
        | some jt =>
          simp only [Event.run, hj] at he
          obtain ⟨⟨o', st'⟩, _, hp⟩ := bind_eq_pure.mp he
          cases hp
          by_cases heq : j = i
          · subst heq
            cases hj.symm.trans hit
            exact ⟨it.after I o' st', List.getElem?_set_self hlt, rfl, rfl⟩
          · exact ⟨it, by rw [List.getElem?_set_ne heq, hit], rfl, rfl⟩
    obtain ⟨it', hit', hk', hopened'⟩ := ih hit1 hre
    exact ⟨it', hit', hk'.trans hk, hopened'.trans hopened⟩

theorem run_returns (hopen : ∀ o kind, Inv o → P (opened I o kind))
    (hn : ∀ o it, Inv o → P it → ∃ o' st',
      I.next o it.state = pure (o', st') ∧ Inv o' ∧ P (it.after I o' st'))
    (h : Holds Inv P s) (hist : List (Event κ)) :
    ∃ s', run I s hist = pure s' ∧ Holds Inv P s' := by
  have hn' : ∀ o it o' st', Inv o → P it → I.next o it.state = pure (o', st') →
        Inv o' ∧ P (it.after I o' st') := by
    intro o it o' st' ho hit hc
    obtain ⟨o1, st1, hc1, h1⟩ := hn o it ho hit
    rw [hc] at hc1
    cases hc1
    exact h1
  induction hist generalizing s with
  | nil => exact ⟨s, rfl, h⟩
  | cons event hist ih =>
    obtain ⟨s1, he⟩ : ∃ s1, event.run I s = pure s1 := by
      cases event with
      | create kind => exact ⟨_, rfl⟩
      | next i =>
        cases hit : s.iterators[i]? with
        | none => exact ⟨s, by simp only [Event.run, hit]⟩
        | some it =>
          obtain ⟨o', st', hc, _⟩ := hn s.object it h.object (h.iterators it (mem_of_getElem? hit))
          exact ⟨⟨o', s.iterators.set i (it.after I o' st')⟩, by
            simp only [Event.run, hit, hc, pure_bind]⟩
    obtain ⟨s', hr, h'⟩ := ih (event_invariant hopen hn' h he)
    exact ⟨s', by rw [run, foldlM_cons, he]; exact hr, h'⟩

theorem exists_exhausted {i bound it}
    (hne : ∀ o it, Inv o → P it → I.hasNext it.state = true → it.elements.length < bound ∧ ∃ o' st',
        I.next o it.state = pure (o', st') ∧ Inv o' ∧ P (it.after I o' st'))
    (ho : Inv s.object) (hit : s.iterators[i]? = some it) (hP : P it) :
    ∃ k ≤ bound - it.elements.length, ∃ s' it',
      run I s (replicate k (.next i)) = pure s' ∧ s'.iterators[i]? = some it' ∧
        it'.kind = it.kind ∧ it'.openedOn = it.openedOn ∧ I.hasNext it'.state = false ∧ P it' := by
  generalize hn : bound - it.elements.length = n
  -- The number of elements that are still missing from the bound.
  induction n generalizing s it with
  | zero =>
    cases hm : I.hasNext it.state with
    | false => exact ⟨0, Nat.le_refl 0, s, it, rfl, hit, rfl, rfl, hm, hP⟩
    | true =>
      have hlt := (hne s.object it ho hP hm).1
      omega
  | succ n ih =>
    cases hm : I.hasNext it.state with
    | false => exact ⟨0, Nat.zero_le _, s, it, rfl, hit, rfl, rfl, hm, hP⟩
    | true =>
      obtain ⟨hlt, o', st', hc, ho', hP'⟩ := hne s.object it ho hP hm
      have hl : bound - (it.after I o' st').elements.length = n := by
        simp only [Iterator.after, hm, if_true, length_append, length_singleton]
        omega
      have hs : (s.iterators.set i (it.after I o' st'))[i]? = some (it.after I o' st') := by
        rw [List.getElem?_set_self (List.getElem?_eq_some_iff.mp hit).1]
      obtain ⟨k, hk, s', it', hr, hit', hki, hopened, he, hla⟩ := ih (s := ⟨o', _⟩) ho' hs hP' hl
      refine ⟨k + 1, Nat.succ_le_succ hk, s', it', ?_, hit', hki, hopened, he, hla⟩
      rw [← hr, run, replicate_succ, foldlM_cons]
      simp only [Event.run, hit, hc, pure_bind]
      rfl

end Libparc.Iteration
