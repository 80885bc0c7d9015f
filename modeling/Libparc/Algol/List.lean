import Libparc.Algol.LinkedListSteps

/-! # parc_List

A list is an object with an interface. `parcList_Clear` of an interface that has
no `Clear` removes the element at `i` while `i` grows and the list shrinks, so
that it steps over the element behind each one that it removes. -/
namespace Libparc.ListInterface
open Exec LinkedList List

/-- The functions that `parcList_Clear` calls; one that is missing is NULL. -/
structure PARCListInterface (σ α : Type) where
  Clear : Option (σ → Prog σ)
  RemoveAtIndex : Option (σ → Nat → Prog (Option α × σ))
  Size : σ → Nat

structure PARCList (σ α : Type) where
  object : σ
  interface : PARCListInterface σ α

variable {σ α : Type}

def parcListSize (list : PARCList σ α) : Nat := list.interface.Size list.object

def parcListRemoveAtIndex (list : PARCList σ α) (index : Nat) :
    Prog (Option α × PARCList σ α) :=
  match list.interface.RemoveAtIndex with
  | some removeAtIndex => do
    let (element, object) ← removeAtIndex list.object index
    pure (element, { list with object })
  | none => pure (none, list)

/-- A turn of the loop of `parcList_Clear`. -/
def clearBody : PARCList σ α × Nat → Prog (PARCList σ α × Nat ⊕ PARCList σ α)
  | (list, i) =>
    if i < parcListSize list then do
      let (_, list) ← parcListRemoveAtIndex list i
      pure (.inl (list, i + 1))
    else pure (.inr list)

def parcListClear (list : PARCList σ α) : Prog (PARCList σ α) :=
  match list.interface.Clear with
  | none => loop clearBody (list, 0)
  | some clear => do pure { list with object := ← clear list.object }

/-- An implementation of lists without a `Clear`: `Holds` relates an object to
its elements, and an element is removed by its index. -/
structure Removes (interface : PARCListInterface σ α) (Holds : σ → List α → Prop) : Prop where
  clear : interface.Clear = none
  size : ∀ {object elements}, Holds object elements → interface.Size object = elements.length
  remove : ∃ removeAtIndex, interface.RemoveAtIndex = some removeAtIndex ∧
    ∀ {object elements i}, Holds object elements → i < elements.length →
      ∃ object', removeAtIndex object i = pure (elements[i]?, object') ∧
        Holds object' (elements.eraseIdx i)

/-- The elements at the odd places, which are the ones that are left. -/
def second : List α → List α
  | _ :: x :: xs => x :: second xs
  | _ => []

theorem second_eq_nil_iff : ∀ xs : List α, second xs = [] ↔ xs.length ≤ 1
  | [] | [_] => by simp [second]
  | _ :: _ :: _ => by simp [second]

section
variable {interface : PARCListInterface σ α} {Holds : σ → List α → Prop} {object : σ}

theorem Removes.clear_next (h : Removes interface Holds) {front tail x}
    (hh : Holds object (front ++ x :: tail)) :
    ∃ o', Holds o' (front ++ tail) ∧ clearBody (⟨object, interface⟩, front.length) =
      pure (.inl (⟨o', interface⟩, front.length + 1)) := by
  obtain ⟨removeAtIndex, hs, hr⟩ := h.remove
  have hlt : front.length < (front ++ x :: tail).length := by simp
  obtain ⟨o', hru, hh'⟩ := hr hh hlt
  rw [eraseIdx_append_of_length_le (Nat.le_refl _), Nat.sub_self, eraseIdx_cons_zero] at hh'
  refine ⟨o', hh', ?_⟩
  simp only [clearBody, parcListSize, h.size hh, if_pos hlt, parcListRemoveAtIndex, hs, hru,
    pure_bind]

theorem Removes.clear_done (h : Removes interface Holds) {es i}
    (hh : Holds object es) (hi : es.length ≤ i) :
    loop clearBody ((⟨object, interface⟩ : PARCList σ α), i) = pure ⟨object, interface⟩ := by
  refine loop_done ?_
  rw [clearBody, parcListSize, h.size hh, if_neg (Nat.not_lt_of_le hi)]

theorem Removes.clear_loop (h : Removes interface Holds) (tail : List α) {front object}
    (hh : Holds object (front ++ tail)) :
    ∃ o', loop clearBody ((⟨object, interface⟩ : PARCList σ α), front.length) =
      pure ⟨o', interface⟩ ∧ Holds o' (front ++ second tail) := by
  match tail with
  | [] => exact ⟨object, h.clear_done hh (by simp), hh⟩
  | [x] =>
    obtain ⟨o', hh', ht⟩ := h.clear_next hh
    exact ⟨o', by rw [loop_next ht, h.clear_done hh' (by simp)], hh'⟩
  | x :: y :: tail =>
    obtain ⟨o', hh', ht⟩ := h.clear_next hh
    rw [append_cons] at hh'
    obtain ⟨o'', hl, hh''⟩ := h.clear_loop tail hh'
    rw [length_append] at hl
    rw [append_assoc] at hh''
    exact ⟨o'', by rw [loop_next ht]; exact hl, hh''⟩

/-- **What `parcList_Clear` leaves**: a list of no or one element is cleared, of
a longer one every second element is left. -/
theorem Removes.clear_iff (h : Removes interface Holds) {elements : List α}
    (hholds : Holds object elements) :
    (∃ object', parcListClear (⟨object, interface⟩ : PARCList σ α) = pure ⟨object', interface⟩ ∧
      Holds object' []) ↔ elements.length ≤ 1 := by
  obtain ⟨left, hl, hle⟩ := h.clear_loop elements (show Holds object ([] ++ elements) from hholds)
  rw [List.nil_append] at hle
  simp only [parcListClear, h.clear]
  rw [← second_eq_nil_iff]
  constructor
  · rintro ⟨object', hr, hn⟩
    cases pure_inj.mp (hl.symm.trans hr)
    rw [← List.length_eq_zero_iff, ← h.size hle, h.size hn, List.length_nil]
  · intro hni
    rw [hni] at hle
    exact ⟨left, hl, hle⟩

end

/-! ## Linked lists -/

/-- `PARCLinkedListAsPARCList`. -/
def linkedListAsPARCList : PARCListInterface (PARCLinkedList α) α :=
  ⟨none, some parcLinkedListRemoveAtIndex, parcLinkedListSize⟩

theorem linkedList_removes : Removes (linkedListAsPARCList (α := α)) fun l es =>
    ∃ xs, Shaped l xs ∧ xs.map Prod.snd = es where
  clear := rfl
  size := by
    rintro l _ ⟨xs, h, rfl⟩
    rw [length_map]
    exact h.size
  remove := by
    refine ⟨_, rfl, ?_⟩
    rintro l _ i ⟨xs, h, rfl⟩ -
    obtain ⟨l', hr, h'⟩ := removeAtIndex_eq h i
    exact ⟨l', by rw [hr, getElem?_map], _, h', (eraseIdx_map ..).symm⟩

/-- A list of one element is cleared, and is not with another one behind it. -/
theorem clear_iff_oneTwo : ∃ one two : PARCLinkedList Nat,
    parcLinkedListAppend .bump parcLinkedListCreate 1 = pure one ∧
    parcLinkedListAppend .bump one 2 = pure two ∧
    (∃ left : PARCLinkedList Nat, parcListClear ⟨one, linkedListAsPARCList⟩ =
        pure (⟨left, linkedListAsPARCList⟩ : PARCList (PARCLinkedList Nat) Nat) ∧
      ∃ xs, Shaped left xs ∧ xs.map Prod.snd = []) ∧
    ¬ ∃ left : PARCLinkedList Nat, parcListClear ⟨two, linkedListAsPARCList⟩ =
        pure (⟨left, linkedListAsPARCList⟩ : PARCList (PARCLinkedList Nat) Nat) ∧
      ∃ xs, Shaped left xs ∧ xs.map Prod.snd = [] := by
  obtain ⟨one, _, ha, h⟩ := append_eq (A := .bump) .create 1
  obtain ⟨two, _, ha', h'⟩ := append_eq (A := .bump) h 2
  refine ⟨one, two, ha, ha', ?_, ?_⟩
  · exact (linkedList_removes.clear_iff ⟨_, h, rfl⟩).mpr (by simp)
  · exact fun hc => absurd ((linkedList_removes.clear_iff ⟨_, h', rfl⟩).mp hc) (by simp)

/-- Two elements are appended, and one is left. -/
theorem clear_two : ∃ (list : PARCLinkedList Nat) (left : PARCList (PARCLinkedList Nat) Nat), (do
      let list ← parcLinkedListAppend .bump parcLinkedListCreate 1
      parcLinkedListAppend .bump list 2) = pure list ∧
    parcListClear ⟨list, linkedListAsPARCList⟩ = pure left ∧ parcListSize left = 1 :=
  ⟨_, _, rfl, (loop_next rfl).trans (loop_done rfl), rfl⟩

end Libparc.ListInterface
