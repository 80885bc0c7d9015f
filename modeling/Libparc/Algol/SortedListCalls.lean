import Mathlib.Data.Multiset.AddSub
import Libparc.Algol.SortedList

/-! # Calls of a sorted list

The elements that were added and not yet removed are a multiset. An insertion
before the head of two or more leaves the tail of the linked list at the wrong node; the
order of the elements is not affected, but a later removal of the last element takes
the wrong one, and a later insertion at the end cuts the list off. Where no element
comes to stand there, the tail is right. -/
namespace Libparc.SortedList
open DoublyLinked LinkedList Exec List Prod Allocator
open Multiset (coe_card coe_eq_coe coe_eq_zero cons_coe mem_coe)

variable {α : Type}

inductive Call (α : Type) where
  | add (element : α)
  | remove (object : α)
  | removeFirst
  | removeLast

def Call.run (A : Allocator) (equals : α → α → Bool) (s : PARCSortedList α) :
    Call α → Prog (Result α × PARCSortedList α)
  | .add element => do pure (.done, ← parcSortedListAdd A s element)
  | .remove object => do
    let (result, s) ← parcSortedListRemove equals s object
    pure (.flag result, s)
  | .removeFirst => do
    let (result, s) ← parcSortedListRemoveFirst s
    pure (.object result, s)
  | .removeLast => do
    let (result, s) ← parcSortedListRemoveLast s
    pure (.object result, s)

/-! ## What the calls have to do -/

/-- What a call returns and takes out, for the elements that are present. -/
def Call.Meets (compare : α → α → Int) (equals : α → α → Bool) (present : Multiset α) :
    Call α → Result α → Multiset α → Prop
  | .add element, result, present' => result = .done ∧ present' = element ::ₘ present
  | .remove object, result, present' =>
    (∃ o, equals object o = true ∧ result = .flag true ∧ present = o ::ₘ present') ∨
      ((∀ o ∈ present, equals object o = false) ∧ result = .flag false ∧ present' = present)
  | .removeFirst, result, present' =>
    (∃ o, (∀ a ∈ present, compare o a ≤ 0) ∧ result = .object (some o) ∧ present = o ::ₘ present') ∨
      (present = 0 ∧ result = .object none ∧ present' = 0)
  | .removeLast, result, present' =>
    (∃ o, (∀ a ∈ present, compare a o ≤ 0) ∧ result = .object (some o) ∧ present = o ::ₘ present') ∨
      (present = 0 ∧ result = .object none ∧ present' = 0)

/-- The traversal is a sorted permutation of the elements that are present, and
the size is their number. -/
def Holds (s : PARCSortedList α) (present : Multiset α) : Prop :=
  ∃ nodes, walkForward s.list = pure nodes ∧ Sorted s.compare (nodes.map Prod.snd) ∧
    (nodes.map Prod.snd : Multiset α) = present ∧ parcSortedListSize s = present.card

/-- Every call of a run returns, does what it has to do and leaves a sorted
list. -/
def AlwaysSorted (A : Allocator) (equals : α → α → Bool) :
    PARCSortedList α → Multiset α → List (Call α) → Prop
  | _, _, [] => True
  | s, present, call :: calls =>
    ∃ result s' present', call.run A equals s = pure (result, s') ∧
      call.Meets s.compare equals present result present' ∧ Holds s' present' ∧
      AlwaysSorted A equals s' present' calls

/-! ## When they do it -/

/-- An element that is added to two or more is above the least of them. -/
def Call.AboveLeast (compare : α → α → Int) (present : Multiset α) : Call α → Prop
  | .add element => 2 ≤ present.card → ∃ a ∈ present, compare a element < 0
  | .remove _ | .removeFirst | .removeLast => True

/-- Every call of a run does so, whatever the calls before it take out of elements that are
the same to the comparison or to the equality. -/
def AboveLeast (compare : α → α → Int) (equals : α → α → Bool) :
    Multiset α → List (Call α) → Prop
  | _, [] => True
  | present, call :: calls =>
    call.AboveLeast compare present ∧ ∀ result present',
      call.Meets compare equals present result present' →
        AboveLeast compare equals present' calls

/-! ## One call -/

/-- The nodes are in order, and the tail is the last of them. -/
structure Ordered (s : PARCSortedList α) (xs : List (Ptr × α)) : Prop where
  shaped : Shaped s.list xs
  sorted : Sorted s.compare (xs.map Prod.snd)

section
variable {A : Allocator} {eq : α → α → Bool} {s : PARCSortedList α} {xs ys : List (Ptr × α)}
  {list : PARCLinkedList α}

/-- The elements of a run of nodes. -/
def elements (xs : List (Ptr × α)) : Multiset α := (xs.map Prod.snd : List α)

theorem Ordered.holds (h : Ordered s xs) : Holds s (elements xs) :=
  ⟨xs, walkForward_eq h.shaped.toThreaded, h.sorted, rfl, by
    rw [elements, coe_card, length_map]
    exact h.shaped.size⟩

theorem elements_middle (xs ys : List (Ptr × α)) (p : Ptr) (a : α) :
    elements (xs ++ (p, a) :: ys) = a ::ₘ elements (xs ++ ys) := by
  unfold elements
  rw [map_append, map_cons, map_append, cons_coe]
  exact coe_eq_coe.mpr perm_middle

theorem mem_elements {a} : a ∈ elements xs ↔ ∃ x ∈ xs, x.2 = a := by
  unfold elements
  rw [mem_coe, mem_map]

theorem remove_loop (h : Shaped list (xs ++ ys)) (eq : α → α → Bool) (o : α) :
    ∃ l', Exec.loop (removeBody eq list o) (last NULL xs) = pure (ys.any fun y => eq o y.2, l') ∧
      Shaped l' (xs ++ ys.eraseP fun y => eq o y.2) := by
  induction ys generalizing xs with
  | nil =>
    refine ⟨list, loop_done ?_, h⟩
    rw [removeBody, iteratorHasNext_eq h.toThreaded, pure_bind]
    rfl
  | cons y ys ih =>
    obtain ⟨p, a⟩ := y
    have hb : removeBody eq list o (last NULL xs) = if eq o a then
        iteratorRemove list p >>= fun r => pure (.inr (true, r.2)) else pure (.inl p) := by
      rw [removeBody, iteratorHasNext_eq h.toThreaded, pure_bind, isEmpty_cons, Bool.not_false,
        if_pos rfl, iteratorNext_eq h.toThreaded, pure_bind]
    cases heq : eq o a with
    | true =>
      obtain ⟨l', hr, h', ht⟩ := iteratorRemove_eq h.toThreaded
      rw [heq, if_pos rfl, hr, pure_bind] at hb
      have he : ((p, a) :: ys).eraseP (fun y => eq o y.2) = ys := by simp [heq]
      rw [any_cons, heq, Bool.true_or, he]
      exact ⟨l', loop_done hb, h', ht h.tail⟩
    | false =>
      rw [heq] at hb
      have hl : p = last NULL (xs ++ [(p, a)]) := by rw [last_append]; rfl
      rw [append_cons] at h
      obtain ⟨l', hr, h'⟩ := ih h
      rw [← hl] at hr
      have he : ((p, a) :: ys).eraseP (fun y => eq o y.2) =
          (p, a) :: ys.eraseP fun y => eq o y.2 := by simp [heq]
      rw [any_cons, heq, Bool.false_or, he]
      rw [append_assoc] at h'
      exact ⟨l', (loop_next hb).trans hr, h'⟩

/-- A call returns, does what it has to do and leaves a list of the same kind. -/
def Call.Does (A : Allocator) (equals : α → α → Bool) (s : PARCSortedList α)
    (xs : List (Ptr × α)) (call : Call α) : Prop :=
  ∃ result s' xs', call.run A equals s = pure (result, s') ∧
    call.Meets s.compare equals (elements xs) result (elements xs') ∧ Ordered s' xs' ∧
    s'.compare = s.compare

section
variable (h : Ordered s xs)
include h

theorem Ordered.sublist (hs : List.Sublist ys xs) (hl : Shaped list ys) :
    Ordered { s with list } ys :=
  ⟨hl, h.sorted.sublist (hs.map snd)⟩

theorem remove_does (object : α) : (Call.remove object).Does A eq s xs := by
  have h' : Shaped s.list ([] ++ xs) := h.shaped
  obtain ⟨list, hr, hl⟩ := remove_loop h' eq object
  rw [last_nil] at hr
  refine ⟨.flag (xs.any fun x => eq object x.2), { s with list },
    xs.eraseP fun x => eq object x.2, ?_, ?_, h.sublist eraseP_sublist hl, rfl⟩
  · rw [Call.run, parcSortedListRemove, hr]
    rfl
  · by_cases han : (xs.any fun x => eq object x.2) = true
    · obtain ⟨x, hx, heq⟩ := any_eq_true.mp han
      obtain ⟨⟨p, a⟩, l, r, -, ha, hxs, he⟩ := exists_of_eraseP (p := fun x => eq object x.2) hx heq
      refine .inl ⟨a, ha, by rw [han], ?_⟩
      rw [he, hxs, elements_middle]
    · rw [Bool.not_eq_true] at han
      have hn := any_eq_false.mp han
      refine .inr ⟨fun o ho => ?_, by rw [han], ?_⟩
      · obtain ⟨x, hx, rfl⟩ := mem_elements.mp ho
        exact Bool.not_eq_true _ ▸ hn x hx
      · rw [eraseP_of_forall_not hn]

variable (hc : TotalCompare s.compare)
include hc

theorem removeFirst_does : (Call.removeFirst : Call α).Does A eq s xs := by
  obtain ⟨list, hr, ht, hta⟩ := removeFirst_eq h.shaped.toThreaded
  refine ⟨.object (xs.head?.map snd), { s with list }, xs.tail, ?_, ?_,
    h.sublist (tail_sublist xs) ⟨ht, hta h.shaped.tail⟩, rfl⟩
  · rw [Call.run, parcSortedListRemoveFirst, hr]
    rfl
  · cases xs with
    | nil => exact .inr ⟨rfl, rfl, rfl⟩
    | cons x xs =>
      refine .inl ⟨x.2, fun a ha => ?_, rfl, elements_middle [] xs x.1 x.2⟩
      rcases mem_cons.mp ha with rfl | ha
      · exact Int.le_of_eq (hc.self _)
      · exact (pairwise_cons.mp h.sorted).1 a ha

theorem removeLast_does : (Call.removeLast : Call α).Does A eq s xs := by
  obtain ⟨list, hr, hl⟩ := removeLast_eq h.shaped
  refine ⟨.object (xs.getLast?.map snd), { s with list }, xs.dropLast, ?_, ?_,
    h.sublist (dropLast_sublist xs) hl, rfl⟩
  · rw [Call.run, parcSortedListRemoveLast, hr]
    rfl
  · rcases eq_nil_or_concat xs with rfl | ⟨xs, ⟨p, b⟩, rfl⟩
    · exact .inr ⟨rfl, rfl, rfl⟩
    · have hs := h.sorted
      rw [concat_eq_append, Sorted, map_append] at hs
      rw [concat_eq_append, getLast?_concat, dropLast_concat, elements_middle, append_nil]
      refine .inl ⟨b, fun a ha => ?_, rfl, rfl⟩
      rcases Multiset.mem_cons.mp ha with rfl | ha
      · exact Int.le_of_eq (hc.self _)
      · exact (pairwise_append.mp hs).2.2 a ha b (.head _)

/-- An element above the least does not come first. -/
theorem add_does {e} (he : (Call.add e).AboveLeast s.compare (elements xs)) :
    (Call.add e).Does A eq s xs := by
  obtain ⟨i, hi, hp⟩ := getInsertionIndex_sorted hc h.shaped.toThreaded h.sorted e
  have hz : i = 0 → xs.length ≤ 1 := by
    rintro rfl
    by_contra hn
    obtain ⟨a, ha, hlt⟩ := he (by rw [elements, coe_card, length_map]; omega)
    obtain ⟨x, hx, rfl⟩ := mem_elements.mp ha
    obtain ⟨j, hj, rfl⟩ := getElem_of_mem hx
    exact absurd ((hc.neg_iff_swap _ _).mp hlt) (Int.not_lt.mpr (hp.after j hj (Nat.zero_le j)))
  obtain ⟨list, q, hr, hl⟩ := insertAtIndex_shaped (A := A) h.shaped hp.le hz e
  refine ⟨.done, { s with list }, _, ?_, ⟨rfl, ?_⟩, ⟨hl, hp.sorted h.sorted q⟩, rfl⟩
  · rw [Call.run, add_eq A h.shaped.toThreaded hi hp.le, hr]
    rfl
  · rw [elements_middle, take_append_drop]

theorem Call.does {call : Call α} (hcl : call.AboveLeast s.compare (elements xs)) :
    call.Does A eq s xs := by
  cases call with
  | add e => exact add_does h hc hcl
  | remove o => exact remove_does h o
  | removeFirst => exact removeFirst_does h hc
  | removeLast => exact removeLast_does h hc

end

/-! ## Runs of calls -/

theorem Ordered.alwaysSorted (hc : TotalCompare s.compare) (h : Ordered s xs) {calls}
    (hca : AboveLeast s.compare eq (elements xs) calls) :
    AlwaysSorted A eq s (elements xs) calls := by
  induction calls generalizing s xs with
  | nil => trivial
  | cons call calls ih =>
    obtain ⟨hcl, hca⟩ := hca
    have hd : call.Does A eq s xs := Call.does h hc hcl
    obtain ⟨r, s', xs', hr, hm, h', hco⟩ := hd
    refine ⟨r, s', elements xs', hr, hm, h'.holds, ih (hco ▸ hc) h' ?_⟩
    rw [hco]
    exact hca r _ hm

end

/-- **The list is a sorted permutation** of the elements that are present, in
every state of a run from the empty list, and the removals return a smallest and
a greatest element, if every element that is added to two or more is above the least of
them. -/
theorem calls_sorted {compare : α → α → Int} (hc : TotalCompare compare) (A : Allocator)
    (equals : α → α → Bool) {calls : List (Call α)} (hcalls : AboveLeast compare equals 0 calls) :
    AlwaysSorted A equals (parcSortedListCreateCompare compare) 0 calls := by
  have h : Ordered (parcSortedListCreateCompare compare) [] := ⟨Shaped.create, .nil⟩
  exact h.alwaysSorted hc hcalls

/-- A third element goes between two, and the last one is taken out. -/
theorem calls_sorted_three : AlwaysSorted bump (· == ·)
    (parcSortedListCreateCompare fun a b : Int => a - b) 0
    [.add 2, .add 4, .add 3, .removeLast] := by
  refine calls_sorted totalCompare_sub _ _ ⟨nofun, ?_⟩
  rintro _ _ ⟨-, rfl⟩
  refine ⟨fun hn => absurd hn (by decide), ?_⟩
  rintro _ _ ⟨-, rfl⟩
  refine ⟨fun _ => ⟨2, ?_, by decide⟩, fun _ _ _ => ⟨trivial, fun _ _ _ => trivial⟩⟩
  exact Multiset.mem_cons_of_mem (Multiset.mem_cons_self 2 0)

/-- An element added at the head of two: the next removal of the last element
returns the second and leaves the greatest. -/
theorem removeLast_returns_second :
    ∃ s s' : PARCSortedList Int, (do
        let s ← parcSortedListAdd bump
          (parcSortedListCreateCompare fun a b : Int => a - b) 2
        let s ← parcSortedListAdd bump s 3
        parcSortedListAdd bump s 1 : Prog (PARCSortedList Int)) = pure s ∧
      walkForward s.list = pure [(4, 1), (1, 2), (2, 3)] ∧
      parcSortedListRemoveLast s = pure (some 2, s') ∧
      walkForward s'.list = pure [(4, 1), (2, 3)] := by
  refine ⟨_, _, bind_eq_pure.mpr ⟨_, rfl, bind_eq_pure.mpr
    ⟨_, bind_eq_pure.mpr ⟨1, loop_done rfl, rfl⟩,
      bind_eq_pure.mpr ⟨0, (loop_next rfl).trans (loop_done rfl), rfl⟩⟩⟩, ?_, rfl, ?_⟩
  · exact (loop_next rfl).trans ((loop_next rfl).trans ((loop_next rfl).trans (loop_done rfl)))
  · exact (loop_next rfl).trans ((loop_next rfl).trans (loop_done rfl))

end Libparc.SortedList
