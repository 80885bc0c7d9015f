import Mathlib.Data.List.Perm.Basic
import Mathlib.Tactic.Common

/-! # A row of chains

The chains of a hash table: a chain is absent until something is put into it.
What matters of a row is which elements it holds, up to their order
(`elements`), and that each of them is in its home chain (`Placed`): then an
element is found by looking in one chain only. Putting the elements of a row
into an empty one, whatever their homes are there, keeps them all
(`elements_distribute`). -/
namespace Libparc.Chaining
open List

variable {α : Type}

abbrev Chains (α : Type) := List (Option (List α))

/-- The elements of a chain; an absent one has none. -/
def chain (chains : Chains α) (i : Nat) : List α := (chains.getD i none).getD []

def elements (chains : Chains α) : List α := chains.flatMap (·.getD [])

/-- Put an element at the end of a chain. -/
def append (chains : Chains α) (i : Nat) (a : α) : Chains α :=
  chains.set i (some (chain chains i ++ [a]))

/-- Put elements into their home chains, one after the other. -/
def distribute (home : α → Nat) (chains : Chains α) (as : List α) : Chains α :=
  as.foldl (fun chains a => append chains (home a) a) chains

/-- Every element is in its home chain. -/
def Placed (home : α → Nat) (chains : Chains α) : Prop :=
  ∀ i, ∀ a ∈ chain chains i, home a = i

variable {home : α → Nat} {cs : Chains α} {a : α} {i : Nat}

theorem elements_cons (c : Option (List α)) (cs : Chains α) :
    elements (c :: cs) = c.getD [] ++ elements cs := flatMap_cons

theorem elements_concat (cs chains' : Chains α) :
    elements (cs ++ chains') = elements cs ++ elements chains' := flatMap_append

theorem mem_elements : a ∈ elements cs ↔ ∃ i, a ∈ chain cs i := by
  induction cs with
  | nil => simp [elements, chain]
  | cons c cs ih =>
    rw [elements_cons, mem_append, ih]
    constructor
    · rintro (h | ⟨i, h⟩)
      · exact ⟨0, h⟩
      · exact ⟨i + 1, h⟩
    · rintro ⟨_ | i, h⟩
      · exact .inl h
      · exact .inr ⟨i, h⟩

theorem elements_take_succ (hi : i < cs.length) :
    elements (cs.take (i + 1)) = elements (cs.take i) ++ chain cs i := by
  unfold elements chain
  rw [take_add_one, flatMap_append, getD_eq_getElem?_getD, getElem?_eq_getElem hi]
  simp

theorem Placed.mem_elements (h : Placed home cs) : a ∈ elements cs ↔ a ∈ chain cs (home a) := by
  rw [Chaining.mem_elements]
  constructor
  · rintro ⟨i, hi⟩
    rwa [h i a hi]
  · exact fun hi => ⟨_, hi⟩

/-! ## Changing one chain -/

theorem chain_set (hi : i < cs.length) (l : List α) (j : Nat) :
    chain (cs.set i (some l)) j = if j = i then l else chain cs j := by
  unfold chain
  rw [getD_eq_getElem?_getD, getElem?_set]
  by_cases hij : j = i
  · subst hij
    rw [if_pos rfl, if_pos rfl, if_pos hi]
    rfl
  · rw [if_neg (Ne.symm hij), if_neg hij, getD_eq_getElem?_getD]

theorem elements_perm (hi : i < cs.length) :
    (elements cs).Perm (chain cs i ++ elements (cs.eraseIdx i)) := by
  induction cs generalizing i with
  | nil => exact absurd hi (Nat.not_lt_zero _)
  | cons c cs ih =>
    cases i with
    | zero => exact .refl _
    | succ i =>
      exact ((ih (Nat.lt_of_succ_lt_succ hi)).append_left _).trans (perm_append_comm_assoc _ _ _)

theorem elements_set_perm (hi : i < cs.length) (l : List α) :
    (elements (cs.set i (some l))).Perm (l ++ elements (cs.eraseIdx i)) := by
  have h := elements_perm (show i < (cs.set i (some l)).length by simpa using hi)
  rwa [chain_set hi, if_pos rfl, eraseIdx_set_eq] at h

theorem chain_of_getD {l} (h : cs.getD i none = some l) : i < cs.length ∧ chain cs i = l := by
  refine ⟨?_, by rw [chain, h]; rfl⟩
  by_contra hge
  rw [getD_eq_getElem?_getD, getElem?_eq_none (Nat.le_of_not_lt hge)] at h
  cases h

theorem elements_set_erase (hi : i < cs.length) {before after}
    (h : chain cs i = before ++ a :: after) :
    (elements cs).Perm (a :: elements (cs.set i (some (before ++ after)))) := by
  refine (elements_perm hi).trans ?_
  rw [h]
  exact (perm_middle.append_right _).trans ((elements_set_perm hi _).symm.cons a)

theorem elements_append (hi : i < cs.length) (a : α) :
    (elements (append cs i a)).Perm (a :: elements cs) := by
  refine (elements_set_perm hi _).trans ?_
  rw [append_assoc, singleton_append]
  exact perm_middle.trans ((elements_perm hi).symm.cons a)

theorem length_append (cs : Chains α) (i : Nat) (a : α) :
    (append cs i a).length = cs.length := length_set

theorem of_set_ne_none {l j} (h : (cs.set i (some l)).getD j none ≠ none) :
    j = i ∨ cs.getD j none ≠ none := by
  by_cases hij : i = j
  · exact .inl hij.symm
  · rw [getD_eq_getElem?_getD, getElem?_set_ne hij, ← getD_eq_getElem?_getD] at h
    exact .inr h

section
variable (h : Placed home cs)
include h

theorem Placed.congr {ho'} (heq : ∀ a ∈ elements cs, ho' a = home a) : Placed ho' cs :=
  fun i a ha => (heq a (Chaining.mem_elements.mpr ⟨i, ha⟩)).trans (h i a ha)

theorem Placed.set (hi : i < cs.length) {l}
    (hl : ∀ a ∈ l, home a = i) : Placed home (cs.set i (some l)) := by
  intro j a ha
  rw [chain_set hi] at ha
  split at ha
  · rename_i hji
    exact (hl a ha).trans hji.symm
  · exact h j a ha

theorem Placed.append (ha : home a < cs.length) : Placed home (append cs (home a) a) := by
  refine h.set ha fun b hb => ?_
  rcases mem_append.mp hb with hb | hb
  · exact h _ b hb
  · rw [mem_singleton.mp hb]

theorem Placed.length_chain (hi : i < cs.length) :
    (chain cs i).length = (elements cs).countP (home · == i) := by
  have hin : (chain cs i).countP (home · == i) = (chain cs i).length :=
    countP_eq_length.mpr fun a ha => beq_iff_eq.mpr (h i a ha)
  have ho : (elements (cs.eraseIdx i)).countP (home · == i) = 0 := by
    refine countP_eq_zero.mpr fun a ha heq => ?_
    obtain ⟨j, hj⟩ := Chaining.mem_elements.mp ((elements_set_perm hi []).mem_iff.mpr ha)
    rw [chain_set hi] at hj
    split at hj
    · exact absurd hj not_mem_nil
    · exact ‹¬ j = i› ((h j a hj).symm.trans (beq_iff_eq.mp heq))
  rw [(elements_perm hi).countP_eq, countP_append, hin, ho, Nat.add_zero]

end

/-! ## Distributing elements -/

theorem length_distribute (home : α → Nat) (cs : Chains α) (as : List α) :
    (distribute home cs as).length = cs.length := by
  induction as generalizing cs with
  | nil => rfl
  | cons a as ih => exact (ih _).trans (length_append _ _ _)

theorem elements_distribute {as} (has : ∀ a ∈ as, home a < cs.length) :
    (elements (distribute home cs as)).Perm (as ++ elements cs) := by
  induction as generalizing cs with
  | nil => exact .refl _
  | cons a as ih =>
    have ha := has a (.head _)
    refine (ih (fun b hb => ?_)).trans ?_
    · rw [length_append]
      exact has b (.tail _ hb)
    · exact ((elements_append ha a).append_left as).trans perm_middle

theorem of_distribute_ne_none {as} (h : (distribute home cs as).getD i none ≠ none) :
    (∃ a ∈ as, home a = i) ∨ cs.getD i none ≠ none := by
  induction as generalizing cs with
  | nil => exact .inr h
  | cons a as ih =>
    obtain ⟨b, hb, hh⟩ | hold := ih h
    · exact .inl ⟨b, mem_cons_of_mem _ hb, hh⟩
    · refine (of_set_ne_none hold).imp_left fun heq => ?_
      exact ⟨a, mem_cons_self, heq.symm⟩

theorem Placed.distribute (h : Placed home cs) {as}
    (has : ∀ a ∈ as, home a < cs.length) : Placed home (distribute home cs as) := by
  induction as generalizing cs with
  | nil => exact h
  | cons a as ih =>
    refine ih (h.append (has a (.head _))) fun b hb => ?_
    rw [length_append]
    exact has b (.tail _ hb)

theorem distribute_append (home : α → Nat) (cs : Chains α) (as bs : List α) :
    distribute home cs (as ++ bs) = distribute home (distribute home cs as) bs :=
  foldl_append

/-! ## A row with nothing in it -/

theorem chain_replicate (n i : Nat) : chain (replicate n (none : Option (List α))) i = [] := by
  rw [chain, getD_eq_getElem?_getD, getElem?_replicate]
  split <;> rfl

theorem getD_replicate_none (n i : Nat) :
    (replicate n (none : Option (List α))).getD i none = none := by
  rw [getD_eq_getElem?_getD, getElem?_replicate]
  split <;> rfl

theorem elements_replicate (n : Nat) : elements (replicate n (none : Option (List α))) = [] := by
  induction n with
  | zero => rfl
  | succ n ih => rw [replicate_succ, elements_cons, ih]; rfl

theorem placed_replicate (home : α → Nat) (n : Nat) :
    Placed home (replicate n (none : Option (List α))) := by
  intro i a ha
  rw [chain_replicate] at ha
  cases ha

end Libparc.Chaining
