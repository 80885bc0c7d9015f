import Libparc.Algol.LinkedListCalls

/-! # parc_Deque

A deque has the fields and the nodes of a linked list, and two of its calls have the code of
the list's. Its removals are its own: `parcDeque_RemoveLast` takes the node before the tail for
granted, so the last element of a deque cannot be taken out at this end
(`removeLast_single`), and `parcDeque_GetAtIndex` computes `size - 1` as a `size_t`, which is
the greatest index of all where the deque is empty (`getAtIndex_empty`). -/
namespace Libparc.Deque
open DoublyLinked LinkedList Exec Store List Prod

variable {α : Type}

/-- `struct parc_deque`. -/
abbrev PARCDeque (α : Type) := PARCLinkedList α

def parcDequeCreate : PARCDeque α := parcLinkedListCreate

/-! ## The checks -/

/-- LongBow's `assertNull`, for a pointer. -/
def assertNull (p : Ptr) (text : String) : Prog Unit := assertTrue (p == NULL) text

section
variable (deque : PARCDeque α)

/-- If there is a neighbour, its link leads back to the node. -/
def assertLinkBack (neighbour : Ptr) (link : Node Ptr α → Ptr) (node : Ptr)
    (text : String) : Prog Unit :=
  if neighbour ≠ NULL then do
    let n ← deque.nodes.read neighbour
    assertTrue (link n == node) text
  else pure ()

/-- `_parcDequeNode_AssertInvariants`. -/
def nodeAssertInvariants (node : Ptr) : Prog Unit := do
  assertTrue (node != NULL) "Expected non-null node pointer."
  let n ← deque.nodes.read node
  assertLinkBack deque n.next Node.previous node "Expected next node to point to this node."
  assertLinkBack deque n.previous Node.next node "Expected previous node to point to this node."

/-- `_parcDeque_AssertInvariants`. -/
def assertInvariants : Prog Unit :=
  if deque.head ≠ NULL then do
    assertTrue (deque.size != 0) "PARCDeque head is not-null, but size is zero."
    assertTrue (deque.tail != NULL) "PARCDeque head is not-null, but tail is null."
    nodeAssertInvariants deque deque.head
    nodeAssertInvariants deque deque.tail
  else do
    assertNull deque.tail "PARCDeque head is null, but tail is not null."
    assertTrue (deque.size == 0) "PARCDeque head is null, but size is not zero."

/-! ## The calls -/

/-- Line for line `parcLinkedList_Append`. -/
def parcDequeAppend (A : Allocator) (deque : PARCDeque α) (element : α) : Prog (PARCDeque α) :=
  parcLinkedListAppend A deque element

/-- `parcLinkedList_Prepend` and two checks; the new node is the head. -/
def parcDequePrepend (A : Allocator) (deque : PARCDeque α) (element : α) :
    Prog (PARCDeque α) := do
  let deque ← parcLinkedListPrepend A deque element
  nodeAssertInvariants deque deque.head
  assertInvariants deque
  pure deque

def parcDequeRemoveFirst : Prog (Option α × PARCDeque α) := do
  let (result, deque) ← (if deque.head ≠ NULL then do
      let node := deque.head
      let n ← deque.nodes.read node
      let deque ← (if deque.head = deque.tail then pure { deque with head := NULL, tail := NULL }
        else do
          let deque := { deque with head := n.next }
          setPrevious deque deque.head NULL)
      pure (some n.object,
        { deque with nodes := deque.nodes.deallocate node, size := deque.size - 1 })
    else pure (none, deque))
  assertInvariants deque
  pure (result, deque)

def parcDequeRemoveLast : Prog (Option α × PARCDeque α) := do
  let (result, deque) ← (if deque.tail ≠ NULL then do
      let node := deque.tail
      let n ← deque.nodes.read node
      let deque := { deque with tail := n.previous }
      let deque ← setNext deque deque.tail NULL
      pure (some n.object,
        { deque with nodes := deque.nodes.deallocate node, size := deque.size - 1 })
    else pure (none, deque))
  assertInvariants deque
  pure (result, deque)

/-- The element of a node, or NULL without one. -/
def elementIfAny (node : Ptr) : Prog (Option α) :=
  if node ≠ NULL then do pure (some (← deque.nodes.read node).object) else pure none

def parcDequePeekFirst : Prog (Option α) := elementIfAny deque deque.head

def parcDequePeekLast : Prog (Option α) := elementIfAny deque deque.tail

def parcDequeSize : Nat := deque.size

/-- `index` next links from a node. -/
def nextNode (deque : PARCDeque α) : Nat → Ptr → Prog Ptr
  | 0, node => pure node
  | index + 1, node => do nextNode deque index (← deque.nodes.read node).next

/-- `size - 1`, which is a `size_t`. -/
def lastIndex : Nat :=
  if parcDequeSize deque = 0 then 2 ^ 64 - 1 else parcDequeSize deque - 1

def parcDequeGetAtIndex (index : UInt64) : Prog α := do
  trapOutOfBoundsIf (index.toNat > lastIndex deque) s!"[0, {lastIndex deque}]"
  let node ← nextNode deque index.toNat deque.head
  pure (← deque.nodes.read node).object

end

/-- A turn of the loop of `parcDeque_Equals`. -/
def equalsBody (equals : α → α → Bool) (x y : PARCDeque α) :
    Ptr × Ptr → Prog ((Ptr × Ptr) ⊕ Bool)
  | (xNode, yNode) =>
    if xNode ≠ NULL then do
      let xCell ← x.nodes.read xNode
      let yCell ← y.nodes.read yNode
      if equals xCell.object yCell.object then pure (.inl (xCell.next, yCell.next))
      else pure (.inr false)
    else pure (.inr true)

/-- Of two deques that have the same `equals` for their elements. -/
def parcDequeEquals (equals : α → α → Bool) (x y : PARCDeque α) : Prog Bool :=
  if x.size = y.size then Exec.loop (equalsBody equals x y) (x.head, y.head) else pure false

/-! ## What they do -/

section
variable {A : Allocator} {d : PARCDeque α} {xs ys : List (Ptr × α)} {p : Ptr} {a : α}

theorem nodeAssertInvariants_pass (h : Threaded d (xs ++ (p, a) :: ys)) :
    nodeAssertInvariants d p = pure () := by
  have hp := h.ne_null_middle
  have hn : assertLinkBack d (first NULL ys) Node.previous p
      "Expected next node to point to this node." = pure () := by
    cases ys with
    | nil => rfl
    | cons y ys =>
      rw [first_cons, assertLinkBack, if_pos h.step.ne_null_middle, read_of h.step.cell, pure_bind]
      exact assertTrue_of (by simp [last_append])
  have hpr : assertLinkBack d (last NULL xs) Node.next p
      "Expected previous node to point to this node." = pure () := by
    rcases xs.eq_nil_or_concat' with rfl | ⟨zs, ⟨q, b⟩, rfl⟩
    · rfl
    · rw [append_assoc] at h
      have hq : last NULL (zs ++ [(q, b)]) = q := last_append NULL zs [(q, b)]
      have h' : Threaded d (zs ++ (q, b) :: (p, a) :: ys) := h
      rw [hq, assertLinkBack, if_pos h'.ne_null_middle, read_of h'.cell, pure_bind]
      exact assertTrue_of (by simp)
  unfold nodeAssertInvariants
  rw [assertTrue_of (by simpa using hp), pure_bind, read_of h.cell, pure_bind, hn, pure_bind, hpr]

section
variable (h : Shaped d xs)
include h

/-- **The checks pass** wherever the links and the size are those of a sequence. -/
theorem assertInvariants_pass : assertInvariants d = pure () := by
  unfold assertInvariants
  by_cases hxs : xs = []
  · subst hxs
    have hh : d.head = NULL := h.head
    rw [if_neg (not_not.mpr hh), h.tail, h.size]
    rfl
  · have hh : d.head ≠ NULL := fun heq => hxs (h.head_eq_null.mp heq)
    have ht : d.tail ≠ NULL := fun heq => hxs (h.tail_eq_null.mp heq)
    have hs : d.size ≠ 0 := by
      rw [h.size]
      exact fun hl => hxs (length_eq_zero_iff.mp hl)
    rw [if_pos hh, assertTrue_of (by simpa using hs), assertTrue_of (by simpa using ht)]
    have hf : nodeAssertInvariants d d.head = pure () := by
      obtain ⟨⟨p, a⟩, ys, rfl⟩ := exists_cons_of_ne_nil hxs
      have h' : Threaded d ([] ++ (p, a) :: ys) := h.toThreaded
      rw [h.head]
      exact nodeAssertInvariants_pass h'
    have hla : nodeAssertInvariants d d.tail = pure () := by
      obtain ⟨zs, ⟨q, b⟩, rfl⟩ := (xs.eq_nil_or_concat').resolve_left hxs
      rw [h.tail, last_append]
      exact nodeAssertInvariants_pass h.toThreaded
    rw [hf, hla]
    rfl

theorem checked (e : Option α) : (do
      assertInvariants d
      pure (e, d) : Prog (Option α × PARCDeque α)) = pure (e, d) := by
  rw [assertInvariants_pass h, pure_bind]

theorem append_shaped (c : α) :
    ∃ d' q, parcDequeAppend A d c = pure d' ∧ Shaped d' (xs ++ [(q, c)]) :=
  append_eq h c

theorem prepend_shaped (c : α) :
    ∃ d' q, parcDequePrepend A d c = pure d' ∧ Shaped d' ((q, c) :: xs) := by
  obtain ⟨d', q, hr, h'⟩ := prepend_eq (A := A) h c
  have hf : Threaded d' ([] ++ (q, c) :: xs) := h'.toThreaded
  refine ⟨d', q, ?_, h'⟩
  unfold parcDequePrepend
  rw [hr, pure_bind, h'.head, first_cons, nodeAssertInvariants_pass hf, pure_bind,
    assertInvariants_pass h', pure_bind]

/-- **The first element is removed**, whatever follows it. -/
theorem removeFirst_shaped :
    ∃ d', parcDequeRemoveFirst d = pure (xs.head?.map snd, d') ∧ Shaped d' xs.tail := by
  unfold parcDequeRemoveFirst
  cases xs with
  | nil =>
    have hh : d.head = NULL := h.head
    refine ⟨d, ?_, h⟩
    rw [if_neg (not_not.mpr hh), pure_bind]
    exact checked h none
  | cons x ys =>
    obtain ⟨p, a⟩ := x
    have h' : Threaded d ([] ++ (p, a) :: ys) := h.toThreaded
    have hp : d.head = p := h.head
    have hd := h'.deleted (last NULL ys)
    rw [last_nil, modify_null] at hd
    have hs : Shaped _ ys := ⟨hd, rfl⟩
    refine ⟨_, ?_, hs⟩
    rw [hp, if_pos h'.ne_null_middle]
    simp only [read_of h'.cell, pure_bind]
    cases ys with
    | nil =>
      have ht : p = d.tail := h.tail.symm
      rw [if_pos ht, pure_bind, pure_bind]
      rw [first_nil, modify_null] at hs ⊢
      exact checked hs (some a)
    | cons y ys =>
      have hne : p ≠ d.tail := by
        rw [h.tail, last_cons]
        intro heq
        exact (nodup_cons.mp h.nodup).1 (heq ▸ last_mem p (cons_ne_nil _ _))
      rw [first_cons, if_neg hne, setPrevious_of h'.step.cell, pure_bind, pure_bind, h.tail]
      exact checked hs (some a)

end

theorem removeLast_empty (h : Shaped d []) : parcDequeRemoveLast d = pure (none, d) := by
  have ht : d.tail = NULL := h.tail
  unfold parcDequeRemoveLast
  rw [if_neg (not_not.mpr ht), pure_bind]
  exact checked h none

theorem removeLast_shaped (h : Shaped d (xs ++ [(p, a)])) (hxs : xs ≠ []) :
    ∃ d', parcDequeRemoveLast d = pure (some a, d') ∧ Shaped d' xs := by
  have hp : d.tail = p := h.tail.trans (last_append NULL xs [(p, a)])
  obtain ⟨node, hn⟩ := h.toThreaded.cell_last hxs
  have hd := h.toThreaded.deleted (last NULL xs)
  rw [first_nil, modify_null, h.toThreaded.head_of_ne_nil hxs, append_nil] at hd
  have hs : Shaped _ xs := ⟨hd, rfl⟩
  refine ⟨_, ?_, hs⟩
  unfold parcDequeRemoveLast
  rw [hp, if_pos h.ne_null_middle]
  simp only [read_of h.cell, pure_bind]
  rw [setNext_of hn, pure_bind, pure_bind]
  exact checked hs (some a)

theorem removeLast_single (h : Shaped d [(p, a)]) : parcDequeRemoveLast d = throw .memoryFault := by
  have h' : Threaded d ([] ++ (p, a) :: []) := h.toThreaded
  have hp : d.tail = p := h.tail
  unfold parcDequeRemoveLast
  rw [hp, if_pos h'.ne_null_middle]
  simp only [read_of h'.cell, pure_bind, last_nil, setNext, write, read_null]
  rfl

theorem peekFirst_eq (h : Shaped d xs) : parcDequePeekFirst d = pure (xs.head?.map snd) := by
  unfold parcDequePeekFirst elementIfAny
  rw [h.head]
  cases xs with
  | nil => rfl
  | cons x xs =>
    obtain ⟨p, a⟩ := x
    have h' : Threaded d ([] ++ (p, a) :: xs) := h.toThreaded
    rw [first_cons, if_pos h'.ne_null_middle, read_of h'.cell]
    rfl

theorem peekLast_eq (h : Shaped d xs) : parcDequePeekLast d = pure (xs.getLast?.map snd) := by
  unfold parcDequePeekLast elementIfAny
  rw [h.tail]
  rcases xs.eq_nil_or_concat' with rfl | ⟨zs, ⟨q, b⟩, rfl⟩
  · rfl
  · have hq : last NULL (zs ++ [(q, b)]) = q := last_append NULL zs [(q, b)]
    rw [hq, if_pos h.ne_null_middle, read_of h.cell, getLast?_concat]
    rfl

theorem nextNode_eq (h : Threaded d (xs ++ ys)) {i} (hi : i ≤ ys.length) :
    nextNode d i (first NULL ys) = pure (first NULL (ys.drop i)) := by
  induction i generalizing xs ys with
  | zero => rfl
  | succ i ih =>
    obtain ⟨⟨p, b⟩, ys, rfl⟩ := exists_cons_of_length_pos (Nat.zero_lt_of_lt hi)
    rw [first_cons, nextNode, read_of h.cell, pure_bind]
    exact ih h.step (Nat.le_of_succ_le_succ hi)

theorem getAtIndex_eq (h : Shaped d xs) {i} (hi : i.toNat < xs.length) :
    parcDequeGetAtIndex d i = pure xs[i.toNat].2 := by
  have h' : Threaded d ([] ++ xs) := h.toThreaded
  have hl : ¬ i.toNat > lastIndex d := by
    rw [lastIndex, parcDequeSize, h.size, if_neg (by omega)]
    omega
  have hs : Threaded d (xs.take i.toNat ++ xs.drop i.toNat) := by
    rw [take_append_drop]
    exact h.toThreaded
  unfold parcDequeGetAtIndex
  rw [trapOutOfBoundsIf_of_not hl, pure_bind, h.head, nextNode_eq h' (Nat.le_of_lt hi), pure_bind]
  rw [drop_eq_getElem_cons hi] at hs ⊢
  have hc : d.nodes.cell xs[i.toNat].1 = some _ := hs.cell
  rw [first_cons, read_of hc, pure_bind]
  rfl

theorem getAtIndex_trap (h : Shaped d xs) (hxs : xs ≠ []) {i} (hi : xs.length ≤ i.toNat) :
    parcDequeGetAtIndex d i = throw (.outOfBounds s!"[0, {lastIndex d}]") := by
  have hl : xs.length ≠ 0 := fun hl => hxs (length_eq_zero_iff.mp hl)
  have hla : i.toNat > lastIndex d := by
    rw [lastIndex, parcDequeSize, h.size, if_neg hl]
    omega
  unfold parcDequeGetAtIndex
  rw [trapOutOfBoundsIf, if_pos hla]
  rfl

theorem getAtIndex_empty (h : Shaped d []) (i : UInt64) :
    parcDequeGetAtIndex d i = throw .memoryFault := by
  have hh : d.head = NULL := h.head
  have hl : ¬ i.toNat > lastIndex d := by
    rw [lastIndex, parcDequeSize, h.size, length_nil, if_pos rfl]
    have := i.toNat_lt
    omega
  unfold parcDequeGetAtIndex
  rw [trapOutOfBoundsIf_of_not hl, pure_bind, hh]
  cases i.toNat with
  | zero =>
    rw [nextNode, pure_bind, read_null]
    rfl
  | succ i =>
    rw [nextNode, read_null]
    rfl

theorem equals_loop {equals} {x y : PARCDeque α} {xs xs' ys ys'}
    (hx : Threaded x (xs' ++ xs)) (hy : Threaded y (ys' ++ ys)) (hl : xs.length = ys.length) :
    Exec.loop (equalsBody equals x y) (first NULL xs, first NULL ys) =
      pure ((xs.map snd).isEqv (ys.map snd) equals) := by
  induction xs generalizing xs' ys' ys with
  | nil =>
    cases length_eq_zero_iff.mp hl.symm
    exact loop_done rfl
  | cons a xs ih =>
    obtain ⟨b, ys, rfl⟩ := exists_cons_of_length_pos (l := ys) (by simp at hl; omega)
    have hb : equalsBody equals x y (a.1, b.1) =
        if equals a.2 b.2 then pure (.inl (first NULL xs, first NULL ys))
        else pure (.inr false) := by
      simp only [equalsBody, ne_eq, hx.ne_null_middle, not_false_eq_true, if_true,
        read_of hx.cell, read_of hy.cell, pure_bind]
    rw [map_cons, map_cons, isEqv]
    cases he : equals a.2 b.2 with
    | false =>
      rw [he] at hb
      exact loop_done hb
    | true =>
      rw [he] at hb
      rw [Bool.true_and, ← ih hx.step hy.step (Nat.succ.inj hl)]
      exact loop_next hb

theorem equals_eq {equals} {x y : PARCDeque α} {ys} (hx : Shaped x xs) (hy : Shaped y ys) :
    parcDequeEquals equals x y = pure ((xs.map snd).isEqv (ys.map snd) equals) := by
  unfold parcDequeEquals
  rw [hx.size, hy.size, hx.head, hy.head]
  split
  · rename_i hl
    have hx' : Threaded x ([] ++ xs) := hx.toThreaded
    have hy' : Threaded y ([] ++ ys) := hy.toThreaded
    exact equals_loop hx' hy' hl
  · rename_i hl
    rw [isEqv_eq_decide, dif_neg (by simpa using hl)]

end

/-! ## Runs -/

inductive Call (α : Type) where
  | append (element : α)
  | prepend (element : α)
  | removeFirst
  | removeLast
  | peekFirst
  | peekLast
  | getAtIndex (index : UInt64)
  | size

inductive Result (α : Type) where
  | done
  | element (e : Option α)
  | size (n : Nat)

def Call.run (A : Allocator) (deque : PARCDeque α) : Call α → Prog (Result α × PARCDeque α)
  | .append element => do pure (.done, ← parcDequeAppend A deque element)
  | .prepend element => do pure (.done, ← parcDequePrepend A deque element)
  | .removeFirst => do
    let (e, deque) ← parcDequeRemoveFirst deque
    pure (.element e, deque)
  | .removeLast => do
    let (e, deque) ← parcDequeRemoveLast deque
    pure (.element e, deque)
  | .peekFirst => do pure (.element (← parcDequePeekFirst deque), deque)
  | .peekLast => do pure (.element (← parcDequePeekLast deque), deque)
  | .getAtIndex index => do pure (.element (some (← parcDequeGetAtIndex deque index)), deque)
  | .size => pure (.size (parcDequeSize deque), deque)

/-- What a call does to a sequence, or `none` if it is to trap. -/
def Call.apply (elements : List α) : Call α → Option (Result α × List α)
  | .append element => some (.done, elements ++ [element])
  | .prepend element => some (.done, element :: elements)
  | .removeFirst => some (.element elements.head?, elements.tail)
  | .removeLast => some (.element elements.getLast?, elements.dropLast)
  | .peekFirst => some (.element elements.head?, elements)
  | .peekLast => some (.element elements.getLast?, elements)
  | .getAtIndex index => (elements[index.toNat]?).map fun e => (.element (some e), elements)
  | .size => some (.size elements.length, elements)

/-- The call does to the deque what it does to the sequence: it returns the same result and
leaves a deque of the sequence, or it traps where that is due. -/
def Call.Does (A : Allocator) (deque : PARCDeque α) (elements : List α) (call : Call α)
    (next : PARCDeque α → List α → Prop) : Prop :=
  match call.apply elements with
  | some (result, elements') => ∃ deque', call.run A deque = pure (result, deque') ∧
      Represents deque' elements' ∧ next deque' elements'
  | none => ∃ text, call.run A deque = throw (.outOfBounds text)

/-- Every call of a run does what it should; a trap ends the run. -/
def Behaves (A : Allocator) : PARCDeque α → List α → List (Call α) → Prop
  | _, _, [] => True
  | deque, elements, call :: calls => call.Does A deque elements fun deque' elements' =>
      Behaves A deque' elements' calls

def Call.Safe (elements : List α) : Call α → Prop
  | .removeLast => elements.length ≠ 1
  | .getAtIndex _ => elements ≠ []
  | _ => True

/-- The run takes no only element out at the end and asks no empty deque for an element. -/
def SafeCalls : List α → List (Call α) → Prop
  | _, [] => True
  | elements, call :: calls => call.Safe elements ∧
      ∀ result elements', call.apply elements = some (result, elements') → SafeCalls elements' calls

section
variable {A : Allocator} {d : PARCDeque α} {xs : List (Ptr × α)}

variable (h : Shaped d xs)
include h

theorem Call.run_shaped {call : Call α} {r elements'} (hs : call.Safe (xs.map snd))
    (ha : call.apply (xs.map snd) = some (r, elements')) :
    ∃ d' xs', call.run A d = pure (r, d') ∧ Shaped d' xs' ∧ xs'.map snd = elements' := by
  cases call with
  | append c =>
    cases ha
    obtain ⟨d', q, hr, h'⟩ := append_shaped (A := A) h c
    exact ⟨d', _, by rw [run, hr]; rfl, h', by simp⟩
  | prepend c =>
    cases ha
    obtain ⟨d', q, hr, h'⟩ := prepend_shaped (A := A) h c
    exact ⟨d', _, by rw [run, hr]; rfl, h', rfl⟩
  | removeFirst =>
    cases ha
    obtain ⟨d', hr, h'⟩ := removeFirst_shaped h
    refine ⟨d', _, ?_, h', map_tail⟩
    rw [run, hr, head?_map]
    rfl
  | removeLast =>
    cases ha
    rcases xs.eq_nil_or_concat' with rfl | ⟨zs, ⟨q, b⟩, rfl⟩
    · exact ⟨d, _, by rw [run, removeLast_empty h]; rfl, h, rfl⟩
    · have hzs : zs ≠ [] := by
        rintro rfl
        exact hs rfl
      obtain ⟨d', hr, h'⟩ := removeLast_shaped h hzs
      refine ⟨d', _, ?_, h', by simp⟩
      rw [run, hr]
      simp
  | peekFirst =>
    cases ha
    refine ⟨d, xs, ?_, h, rfl⟩
    rw [run, peekFirst_eq h, head?_map]
    rfl
  | peekLast =>
    cases ha
    refine ⟨d, xs, ?_, h, rfl⟩
    rw [run, peekLast_eq h, getLast?_map]
    rfl
  | getAtIndex i =>
    obtain ⟨e, he, heq⟩ := Option.map_eq_some_iff.mp ha
    cases heq
    obtain ⟨hlt, rfl⟩ := List.getElem?_eq_some_iff.mp he
    rw [length_map] at hlt
    refine ⟨d, xs, ?_, h, rfl⟩
    rw [run, getAtIndex_eq h hlt, getElem_map]
    rfl
  | size =>
    cases ha
    refine ⟨d, xs, ?_, h, rfl⟩
    rw [length_map, ← h.size]
    rfl

theorem Call.run_trap {call : Call α} (hs : call.Safe (xs.map snd))
    (ha : call.apply (xs.map snd) = none) :
    ∃ text, call.run A d = throw (.outOfBounds text) := by
  cases call with
  | getAtIndex i =>
    have hl : xs.length ≤ i.toNat := by
      simpa [apply] using ha
    have hxs : xs ≠ [] := fun hn => hs (by rw [hn]; rfl)
    exact ⟨_, by rw [run, getAtIndex_trap h hxs hl]; rfl⟩
  | append _ | prepend _ | removeFirst | removeLast | peekFirst | peekLast | size => cases ha

theorem Call.run_unsafe {call : Call α}
    (hb : ¬ call.Safe (xs.map snd)) : call.run A d = throw .memoryFault := by
  cases call with
  | removeLast =>
    have hl : xs.length = 1 := by simpa [Call.Safe] using hb
    obtain ⟨⟨p, a⟩, rfl⟩ := length_eq_one_iff.mp hl
    rw [run, removeLast_single h]
    rfl
  | getAtIndex i =>
    have hxs : xs = [] := by simpa [Call.Safe] using hb
    subst hxs
    rw [run, getAtIndex_empty h]
    rfl
  | append _ | prepend _ | removeFirst | peekFirst | peekLast | size =>
    exact absurd trivial hb

theorem behaves_iff (calls : List (Call α)) :
    Behaves A d (xs.map snd) calls ↔ SafeCalls (xs.map snd) calls := by
  induction calls generalizing d xs with
  | nil => exact Iff.rfl
  | cons call calls ih =>
    unfold Behaves SafeCalls Call.Does
    by_cases hs : call.Safe (xs.map snd)
    · rw [and_iff_right hs]
      cases ha : call.apply (xs.map snd) with
      | none => exact iff_of_true (Call.run_trap h hs ha) nofun
      | some res =>
        obtain ⟨r, es'⟩ := res
        obtain ⟨d', xs', hr, h', rfl⟩ := Call.run_shaped (A := A) h hs ha
        constructor
        · rintro ⟨d'', hr'', -, hn⟩ _ _ ⟨⟩
          cases hr.symm.trans hr''
          exact (ih h').mp hn
        · intro hc
          exact ⟨d', hr, h'.represents, (ih h').mpr (hc _ _ rfl)⟩
    · have hr := Call.run_unsafe (A := A) h hs
      refine iff_of_false (fun hd => ?_) fun hal => hs hal.1
      split at hd
      · obtain ⟨_, hr', _⟩ := hd
        cases hr.symm.trans hr'
      · obtain ⟨_, hr'⟩ := hd
        cases hr.symm.trans hr'

end

/-- **A deque behaves as a double-ended sequence** in every call of a run, from the empty deque,
exactly if the run takes no only element out at the end and asks no empty deque for an element
by its index. -/
theorem calls_behave_iff (A : Allocator) (calls : List (Call α)) :
    Behaves A (parcDequeCreate : PARCDeque α) [] calls ↔ SafeCalls [] calls :=
  behaves_iff Shaped.create calls

/-- Taking out the only element at the end, and an index into nothing: the program stops with
an access through NULL. -/
theorem only_element_faults :
    (do
        let (_, deque) ← (Call.append 7).run Allocator.bump (parcDequeCreate : PARCDeque Nat)
        Call.removeLast.run Allocator.bump deque) = throw .memoryFault ∧
      (Call.getAtIndex 0).run Allocator.bump (parcDequeCreate : PARCDeque Nat) =
        throw .memoryFault := ⟨rfl, rfl⟩

end Libparc.Deque
