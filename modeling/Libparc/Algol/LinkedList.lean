import Libparc.DoublyLinked
import Libparc.Store

/-! # parc_LinkedList

A list has the store of its nodes. `Threaded` says that the links and the size
are those of a sequence; the tail pointer is a matter of its own, because
`parcLinkedList_InsertAtIndex` at the head of a list sets it to a wrong node
(`insertAtIndex_zero`).

The optional validity assertions are compiled out, objects are values, and
allocation is taken to succeed. -/
namespace Libparc.LinkedList
open DoublyLinked Store List

/-- `struct parc_linkedlist`, with the nodes it has. -/
structure PARCLinkedList (α : Type) where
  nodes : Store (Node Ptr α)
  head : Ptr
  tail : Ptr
  size : Nat

variable {α : Type} (A : Allocator)

def parcLinkedListCreate : PARCLinkedList α := ⟨.empty, NULL, NULL, 0⟩

section
variable (list : PARCLinkedList α) (node : Ptr) (equals : α → α → Bool) (index : Nat) (element : α)

/-- `_parcLinkedListNode_Create`. -/
def nodeCreate (object : α) (previous next : Ptr) : PARCLinkedList α × Ptr :=
  let (nodes, node) := list.nodes.allocate A ⟨object, previous, next⟩
  ({ list with nodes }, node)

/-- `node->next = next`. -/
def setNext (node next : Ptr) : Prog (PARCLinkedList α) := do
  pure { list with nodes := ← list.nodes.write node fun n => { n with next } }

/-- `node->previous = previous`. -/
def setPrevious (node previous : Ptr) : Prog (PARCLinkedList α) := do
  pure { list with nodes := ← list.nodes.write node fun n => { n with previous } }

def parcLinkedListSize : Nat := list.size

/-! ## Walking -/

/-- `_parcLinkedListNode_getByIndex`. -/
def nodeGetByIndex (list : PARCLinkedList α) : Nat → Ptr → Prog Ptr
  | 0, node => pure node
  | index + 1, node =>
    if node = NULL then pure node
    else do nodeGetByIndex list index (← list.nodes.read node).next

/-- A turn of the loop of `_parcLinkedListNode_getByValue`. -/
def nodeGetByValueBody (list : PARCLinkedList α) (value : α) (node : Ptr) : Prog (Ptr ⊕ Ptr) :=
  if node = NULL then pure (.inr node)
  else do
    let n ← list.nodes.read node
    if equals n.object value then pure (.inr node) else pure (.inl n.next)

def nodeGetByValue (list : PARCLinkedList α) (value : α) : Prog Ptr :=
  Exec.loop (nodeGetByValueBody equals list value) list.head

/-- The trap of `SetAtIndex` and `GetAtIndex`. The greatest index of an empty
list is `SIZE_MAX`, so any index passes. -/
def trapIfIndexExceedsSize : Prog Unit :=
  let last := list.size - 1
  trapOutOfBoundsIf (list.size ≠ 0 ∧ index > last) s!"[0, {last}]"

def parcLinkedListGetAtIndex : Prog (Option α) := do
  trapIfIndexExceedsSize list index
  let node ← nodeGetByIndex list index list.head
  if node = NULL then pure none else pure (some (← list.nodes.read node).object)

def parcLinkedListSetAtIndex : Prog (Option α × PARCLinkedList α) := do
  trapIfIndexExceedsSize list index
  let node ← nodeGetByIndex list index list.head
  if node = NULL then pure (none, list)
  else do
    let n ← list.nodes.read node
    pure (some n.object,
      { list with nodes := ← list.nodes.write node fun n => { n with object := element } })

/-! ## Inserting -/

def parcLinkedListAppend : Prog (PARCLinkedList α) := do
  let (list, node) := nodeCreate A list element list.tail NULL
  let list ← (if list.tail = NULL then pure { list with tail := node }
    else do
      let list ← setNext list list.tail node
      pure { list with tail := node })
  let list := if list.head = NULL then { list with head := list.tail } else list
  pure { list with size := list.size + 1 }

def parcLinkedListPrepend : Prog (PARCLinkedList α) := do
  let (list, node) := nodeCreate A list element NULL list.head
  let list ← (if list.head = NULL then pure { list with head := node }
    else do
      let list ← setPrevious list list.head node
      pure { list with head := node })
  let list := if list.tail = NULL then { list with tail := list.head } else list
  pure { list with size := list.size + 1 }

/-- The loop of `parcLinkedList_InsertAtIndex`, which stops at the last node. -/
def walkTo (list : PARCLinkedList α) : Nat → Ptr → Prog Ptr
  | 0, node => pure node
  | index + 1, node => do
    let n ← list.nodes.read node
    if n.next ≠ NULL then walkTo list index n.next else pure node

def parcLinkedListInsertAtIndex : Prog (PARCLinkedList α) :=
  if index = 0 then
    if list.head = NULL then
      let (list, newNode) := nodeCreate A list element NULL NULL
      pure { list with head := newNode, tail := newNode, size := list.size + 1 }
    else do
      let (list, newNode) := nodeCreate A list element NULL list.head
      let list ← setPrevious list list.head newNode
      pure { list with tail := list.head, head := newNode, size := list.size + 1 }
  else if index = list.size then do
    let node := list.tail
    let (list, newNode) := nodeCreate A list element node NULL
    let list ← setNext list node newNode
    pure { list with tail := newNode, size := list.size + 1 }
  else do
    let node ← walkTo list index list.head
    let n ← list.nodes.read node
    let (list, newNode) := nodeCreate A list element n.previous node
    let list ← setNext list n.previous newNode
    let list ← setPrevious list node newNode
    pure { list with size := list.size + 1 }

/-! ## Removing -/

/-- `_parcLinkedListNode_Delete`. -/
def nodeDelete : Prog (α × PARCLinkedList α) := do
  let n ← list.nodes.read node
  let list := { list with
    size := list.size - 1
    head := if node = list.head then n.next else list.head
    tail := if node = list.tail then n.previous else list.tail }
  let list ← (if n.previous ≠ NULL then setNext list n.previous n.next else pure list)
  let list ← (if n.next ≠ NULL then setPrevious list n.next n.previous else pure list)
  pure (n.object, { list with nodes := list.nodes.deallocate node })

/-- The node is deleted if there is one. -/
def deleteIfAny : Prog (Option α × PARCLinkedList α) :=
  if node ≠ NULL then do
    let (object, list) ← nodeDelete list node
    pure (some object, list)
  else pure (none, list)

def parcLinkedListRemoveFirst : Prog (Option α × PARCLinkedList α) :=
  deleteIfAny list list.head

def parcLinkedListRemoveLast : Prog (Option α × PARCLinkedList α) :=
  deleteIfAny list list.tail

def parcLinkedListRemoveAtIndex : Prog (Option α × PARCLinkedList α) := do
  deleteIfAny list (← nodeGetByIndex list index list.head)

def parcLinkedListRemove (list : PARCLinkedList α) (element : α) :
    Prog (Bool × PARCLinkedList α) := do
  let (object, list) ← deleteIfAny list (← nodeGetByValue equals list element)
  pure (object.isSome, list)

/-! ## Iterators

The state of an iterator is the node it returned last, or NULL. -/

/-- `_parcLinkedListNode_IsValid`; the objects are taken to be valid. -/
def nodeIsValid : Prog Bool :=
  if node = NULL then pure false
  else do
    let n ← list.nodes.read node
    let result ← (if n.previous = NULL then pure true
      else do pure (decide ((← list.nodes.read n.previous).next = node)))
    if n.next = NULL then pure true
    else do pure (result || decide ((← list.nodes.read n.next).previous = node))

/-- The validity check that `parcIterator` makes of the state. -/
def iteratorIsValid : Prog Unit :=
  if node = NULL then pure () else do assertTrue (← nodeIsValid list node) "node is invalid"

def iteratorHasNext : Prog Bool := do
  let next ← (if node = NULL then pure list.head else do pure (← list.nodes.read node).next)
  if next = NULL then pure false
  else do
    assertTrue (← nodeIsValid list next) "node is invalid"
    pure true

/-- `parcIterator_Next`: the new state and the element there. -/
def iteratorNext : Prog (Ptr × α) := do
  let result ← (if node = NULL then pure list.head
    else do
      assertTrue (← nodeIsValid list node) "node is invalid"
      let n ← list.nodes.read node
      trapOutOfBoundsIf (n.next = NULL) "No more elements."
      pure n.next)
  assertTrue (← nodeIsValid list result) "result is invalid"
  iteratorIsValid list result
  pure (result, (← list.nodes.read result).object)

/-- `parcIterator_Remove`: the state goes back to the previous node. -/
def iteratorRemove : Prog (Ptr × PARCLinkedList α) :=
  if node = NULL then pure (node, list)
  else do
    let previous := (← list.nodes.read node).previous
    let (_, list) ← nodeDelete list node
    iteratorIsValid list previous
    pure (previous, list)

end

/-! ## The sequence of the nodes -/

/-- The links and the size are those of the nodes `xs`, from the head on. -/
structure Threaded (list : PARCLinkedList α) (xs : List (Ptr × α)) : Prop where
  linked : Linked list.nodes.cell NULL xs NULL
  nodup : (addresses xs).Nodup
  head : list.head = first NULL xs
  size : list.size = xs.length

variable {A} {l : PARCLinkedList α} {xs ys : List (Ptr × α)} {p : Ptr} {a : α}

namespace Threaded

theorem create : Threaded (parcLinkedListCreate : PARCLinkedList α) [] :=
  ⟨trivial, nodup_nil, rfl, rfl⟩

theorem ne_null (h : Threaded l xs) (hp : p ∈ addresses xs) : p ≠ NULL := by
  obtain ⟨node, hn⟩ := h.linked.isSome hp
  exact Store.ne_null hn

theorem null_not_mem (h : Threaded l xs) : NULL ∉ addresses xs := fun hp => h.ne_null hp rfl

theorem cell (h : Threaded l (xs ++ (p, a) :: ys)) :
    l.nodes.cell p = some ⟨a, last NULL xs, first NULL ys⟩ := (linked_append.mp h.linked).2.1

theorem head_eq_null (h : Threaded l xs) : l.head = NULL ↔ xs = [] := by
  rw [h.head]
  cases xs with
  | nil => simp
  | cons x xs =>
    have hx : x.1 ≠ NULL := h.ne_null (.head _)
    exact ⟨fun heq => absurd heq hx, fun heq => by cases heq⟩

theorem live_last (h : Threaded l (xs ++ ys)) :
    last NULL xs = NULL ∨ ∃ node, l.nodes.cell (last NULL xs) = some node := by
  by_cases hn : xs = []
  · exact .inl (by rw [hn]; rfl)
  · refine .inr (h.linked.isSome ?_)
    rw [addresses_append]
    exact mem_append_left _ (last_mem NULL hn)

theorem live_first (h : Threaded l (xs ++ ys)) :
    first NULL ys = NULL ∨ ∃ node, l.nodes.cell (first NULL ys) = some node := by
  cases ys with
  | nil => exact .inl rfl
  | cons y ys =>
    refine .inr (h.linked.isSome ?_)
    rw [addresses_append]
    exact mem_append_right _ (.head _)

end Threaded

section
variable {ns : Store (Node Ptr α)} {head tail node : Ptr} {size : Nat}

section
variable (hno : node = NULL ∨ ∃ n, ns.cell node = some n)
include hno

theorem setNext_if {next} :
    (if node ≠ NULL then setNext ⟨ns, head, tail, size⟩ node next
      else pure ⟨ns, head, tail, size⟩) =
      pure ⟨ns.modify node fun n => { n with next }, head, tail, size⟩ := by
  split
  · rename_i hne
    obtain ⟨n, hn⟩ := hno.resolve_left hne
    rw [setNext, write_of hn, pure_bind]
  · rename_i hnu
    rw [Classical.not_not.mp hnu, modify_null]

theorem setPrevious_if {previous} :
    (if node ≠ NULL then setPrevious ⟨ns, head, tail, size⟩ node previous
      else pure ⟨ns, head, tail, size⟩) =
      pure ⟨ns.modify node fun n => { n with previous }, head, tail, size⟩ := by
  split
  · rename_i hne
    obtain ⟨n, hn⟩ := hno.resolve_left hne
    rw [setPrevious, write_of hn, pure_bind]
  · rename_i hnu
    rw [Classical.not_not.mp hnu, modify_null]

theorem live_modify {q f} : node = NULL ∨ ∃ n, (ns.modify q f).cell node = some n := by
  refine hno.imp_right fun ⟨n, hn⟩ => ?_
  rw [cell_modify, hn]
  split
  · exact ⟨_, rfl⟩
  · exact ⟨n, rfl⟩

end

theorem cell_relinked (ns : Store (Node Ptr α)) (l r n m q : Ptr) :
    ((ns.modify l fun node => { node with next := n }).modify r
        fun node => { node with previous := m }).cell q =
      (ns.cell q).map fun node =>
        { node with
          previous := if q = r then m else node.previous
          next := if q = l then n else node.next } := by
  simp only [cell_modify]
  split_ifs <;> cases ns.cell q <;> rfl

end

theorem not_mem_right (h : p ∉ addresses (xs ++ ys)) : p ∉ addresses ys := by
  rw [addresses_append] at h
  exact fun hm => h (mem_append_right _ hm)

section
variable (h : Threaded l (xs ++ (p, a) :: ys))
include h

theorem Threaded.deleted (tail : Ptr) :
    Threaded ⟨((l.nodes.modify (last NULL xs) fun n => { n with next := first NULL ys }).modify
        (first NULL ys) fun n => { n with previous := last NULL xs }).deallocate p,
      first (first NULL ys) xs, tail, l.size - 1⟩ (xs ++ ys) := by
  have hm : Threaded l (xs ++ [(p, a)] ++ ys) := by simpa using h
  have hn : p ∉ addresses (xs ++ ys) ∧ (addresses (xs ++ ys)).Nodup := by
    have := h.nodup
    rw [addresses_append, addresses_cons] at this
    rw [addresses_append]
    exact nodup_cons.mp (nodup_middle.mp this)
  have hnu : NULL ∉ addresses (xs ++ ys) := by
    have := h.null_not_mem
    rw [addresses_append, addresses_cons, mem_append, mem_cons] at this
    rw [addresses_append, mem_append]
    exact fun hme => this (hme.imp_right .inr)
  refine ⟨?_, hn.2, (first_append NULL xs ys).symm, ?_⟩
  · have hni : xs ++ ys = xs ++ [] ++ ys := by rw [append_nil]
    rw [hni]
    refine hm.linked.splice hn.2 (not_mem_right hnu) hnu trivial fun q hq => ?_
    have hne : q ≠ p := fun heq => hn.1 (heq ▸ hq)
    rw [cell_deallocate, if_neg hne, cell_relinked]
    rfl
  · rw [h.size]
    simp

theorem Threaded.head_deleted :
    (if p = l.head then first NULL ys else l.head) = first (first NULL ys) xs := by
  rw [h.head]
  cases xs with
  | nil => simp
  | cons x xs =>
    have hn := h.nodup
    rw [cons_append, addresses_cons, nodup_cons] at hn
    have hne : p ≠ x.1 := fun heq => hn.1 (by simp [addresses_append, ← heq])
    exact if_neg hne

/-- **Deleting a node** takes it out of the sequence, wherever the tail is. -/
theorem Threaded.delete :
    ∃ l', nodeDelete l p = pure (a, l') ∧ Threaded l' (xs ++ ys) ∧
      l'.tail = if p = l.tail then last NULL xs else l.tail := by
  have hm : Threaded l (xs ++ [(p, a)] ++ ys) := by simpa using h
  refine ⟨_, ?_, h.deleted (if p = l.tail then last NULL xs else l.tail), rfl⟩
  simp only [nodeDelete, read_of h.cell, pure_bind]
  rw [setNext_if h.live_last, pure_bind, setPrevious_if (live_modify hm.live_first), pure_bind,
    h.head_deleted]

end

/-- **Inserting a node**: a new node between two parts, and the links to it. -/
theorem Threaded.insert (h : Threaded l (xs ++ ys)) {nodes q tail}
    (hn : l.nodes.allocate A ⟨a, last NULL xs, first NULL ys⟩ = (nodes, q)) :
    Threaded ⟨(nodes.modify (last NULL xs) fun n => { n with next := q }).modify
        (first NULL ys) fun n => { n with previous := q }, first q xs, tail, l.size + 1⟩
      (xs ++ (q, a) :: ys) := by
  have hc := cell_allocate hn
  have hq : q ∉ addresses (xs ++ ys) := fun hm => by
    obtain ⟨node, hno⟩ := h.linked.isSome hm
    exact ne_new hn hno rfl
  have ho : ∀ r, (r = NULL ∨ ∃ node, l.nodes.cell r = some node) → q ≠ r := by
    rintro r (rfl | ⟨node, hno⟩)
    · exact Store.ne_null (Store.cell_new hn)
    · exact (Store.ne_new hn hno).symm
  have hnd : (addresses (xs ++ (q, a) :: ys)).Nodup := by
    rw [addresses_append, addresses_cons, nodup_middle, ← addresses_append]
    exact nodup_cons.mpr ⟨hq, h.nodup⟩
  refine ⟨?_, hnd, ?_, ?_⟩
  · have hon : xs ++ (q, a) :: ys = xs ++ [(q, a)] ++ ys := by simp
    have hl : Linked l.nodes.cell NULL (xs ++ [] ++ ys) NULL := by simpa using h.linked
    rw [hon]
    refine hl.splice h.nodup (not_mem_right h.null_not_mem) h.null_not_mem ⟨?_, trivial⟩
      fun r hr => ?_
    · rw [cell_relinked, hc q, if_pos rfl, Option.map_some,
        if_neg (ho _ h.live_first), if_neg (ho _ h.live_last)]
      rfl
    · have hne : r ≠ q := fun heq => hq (heq ▸ hr)
      rw [cell_relinked, hc r, if_neg hne]
      rfl
  · rw [first_append, first_cons]
  · rw [h.size]
    simp
    omega

end Libparc.LinkedList
