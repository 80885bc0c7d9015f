import Libparc.Sweep
import Libparc.Algol.LinkedListCalls

/-! # Removing from a linked list with an iterator

An iterator's state is the node it returned last, or NULL. A removal moves it
back to the previous node, or to NULL when the head is removed, so that it stands
after the last of the nodes it went over that are still there. -/
namespace Libparc.LinkedList
open DoublyLinked Sweep

variable {α : Type} {list : PARCLinkedList α} {xs : List (Ptr × α)}

/-- The iterator of `parcLinkedList_CreateIterator`. -/
def linkedListIterator : Interface Trap (PARCLinkedList α) Ptr α where
  init _ := pure NULL
  hasNext list node := do
    let more ← iteratorHasNext list node
    pure (more, node)
  next := iteratorNext
  remove list node := do
    let (node, list) ← iteratorRemove list node
    pure (list, node)

/-- The iterator stands after the nodes `kept`. -/
structure StandsAfter (kept rest : List (Ptr × α)) (list : PARCLinkedList α) (node : Ptr) :
    Prop where
  shaped : Shaped list (kept ++ rest)
  node : node = last NULL kept

theorem linkedListIterator_lawful :
    Lawful (linkedListIterator (α := α)) Prod.snd StandsAfter where
  done := by
    intro kept list node h
    refine ⟨node, ?_⟩
    simp only [linkedListIterator, h.node, iteratorHasNext_eq h.shaped.toThreaded, pure_bind]
    rfl
  step := by
    intro kept x rest list node h
    obtain ⟨p, a⟩ := x
    have ht := h.shaped.toThreaded
    obtain ⟨l', hr, ht', hta⟩ := iteratorRemove_eq ht
    refine ⟨node, p, ?_, ?_, ⟨?_, ?_⟩, l', last NULL kept, ?_, ⟨⟨ht', ?_⟩, rfl⟩⟩
    · simp only [linkedListIterator, h.node, iteratorHasNext_eq ht, pure_bind]
      rfl
    · rw [h.node]
      exact iteratorNext_eq ht
    · rw [List.append_assoc]
      exact h.shaped
    · rw [last_append]
      rfl
    · simp only [linkedListIterator, hr, pure_bind]
    · exact hta h.shaped.tail

/-- **Going over a list and removing some elements visits every element once, in
order, and leaves a list of the others.** -/
theorem sweep_leaves_unchosen (h : Shaped list xs) (choose : Nat → Bool) :
    ∃ list' node nodes, sweep linkedListIterator choose list = pure (list', node, xs.map Prod.snd) ∧
      Shaped list' nodes ∧ nodes.map Prod.snd = unchosen choose 0 (xs.map Prod.snd) ∧
      Represents list' (unchosen choose 0 (xs.map Prod.snd)) ∧
      iteratorHasNext list' node = pure false := by
  obtain ⟨list', node, node', hs, he, hhn⟩ := sweep_eq linkedListIterator_lawful choose
    (show linkedListIterator.init list = pure NULL from rfl) ⟨h, rfl⟩
  have hsh := he.shaped
  rw [List.append_nil] at hsh
  have hr := hsh.represents
  rw [map_unchosen] at hr
  obtain ⟨more, hm, heq⟩ := Exec.bind_eq_pure.mp hhn
  cases heq
  exact ⟨list', node, _, hs, hsh, map_unchosen .., hr, hm⟩

/-- A list of three nodes. -/
def threeNodes : PARCLinkedList Nat where
  nodes :=
    let nodes := (Store.empty.allocate Allocator.bump ⟨10, NULL, 2⟩).1
    let nodes := (nodes.allocate Allocator.bump ⟨20, 1, 4⟩).1
    (nodes.allocate Allocator.bump ⟨30, 2, NULL⟩).1
  head := 1
  tail := 4
  size := 3

theorem threeNodes_shaped : Shaped threeNodes [(1, 10), (2, 20), (4, 30)] :=
  ⟨⟨⟨rfl, rfl, rfl, trivial⟩, by decide, rfl, rfl⟩, rfl⟩

/-- The first and the last element are removed. -/
theorem sweep_threeNodes :
    ∃ list' node nodes, sweep linkedListIterator (· != 1) threeNodes =
        pure (list', node, [10, 20, 30]) ∧
      Shaped list' nodes ∧ nodes.map Prod.snd = [20] ∧ Represents list' [20] ∧
      iteratorHasNext list' node = pure false :=
  sweep_leaves_unchosen threeNodes_shaped (· != 1)

end Libparc.LinkedList
