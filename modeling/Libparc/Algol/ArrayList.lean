import Mathlib.Data.List.Induction
import Libparc.Conformance
import Libparc.Runtime

/-! # parc_ArrayList

An array list keeps its pointers in the first slots of an array that grows when there is no room
for one more; the reallocation reads the new size out of the old array. Removal moves the
elements behind the removed one down, each into the slot before it, from the lowest to the
highest. Insertion goes through its elements in the same direction, but moves them up: each
element is overwritten before it is moved, and what was at the index is then in every slot behind
it (`insertAtIndex_holds`). -/
namespace Libparc.ArrayList
open Conformance List Option

variable {α : Type}

/-- `struct parc_array_list`. A slot of the array that was never written is `none`; what
`destroyElement` leaves in the slot it is given is a function of what was there. -/
structure PARCArrayList (α : Type) where
  array : List (Option α)
  numberOfElements : Nat
  limit : Nat
  destroyElement : Option (α → α)

/-! ## Slots -/

/-- `array[i]`. -/
def slot (array : List (Option α)) (i : Nat) : Prog α :=
  match array[i]? with
  | some (some a) => pure a
  | _ => throw .memoryFault

/-- `array[i] = pointer`. -/
def setSlot (array : List (Option α)) (i : Nat) (pointer : α) : Prog (List (Option α)) :=
  if i < array.length then pure (array.set i (some pointer)) else throw .memoryFault

def moveSlot (array : List (Option α)) (source target : Nat) : Prog (List (Option α)) := do
  setSlot array target (← slot array source)

/-! ## Creation and growth -/

section
variable (list : PARCArrayList α) (index : Nat)

def remaining : Nat := list.limit - list.numberOfElements

/-- `_ensureCapacity`: the new slots have what was read behind the end of the old array, that is
nothing that was written. Runs check that nothing is read there (`Call.checked`). -/
def ensureCapacity (newCapacity : Nat) : PARCArrayList α :=
  { list with array := rplRealloc none list.array newCapacity, limit := newCapacity }

def ensureRemaining (remnant : Nat) : PARCArrayList α :=
  if remaining list < remnant then ensureCapacity list (list.numberOfElements + remnant) else list

def parcArrayListCreate (destroyElement : Option (α → α)) : PARCArrayList α :=
  ⟨[], 0, 0, destroyElement⟩

def parcArrayListCreateCapacity (destroyElement : Option (α → α)) (size : Nat) :
    PARCArrayList α :=
  ensureRemaining (parcArrayListCreate destroyElement) size

/-! ## Calls -/

def parcArrayListSize : Nat := list.numberOfElements

def parcArrayListIsEmpty : Bool := list.numberOfElements == 0

def parcArrayListAdd (pointer : α) : Prog (PARCArrayList α) := do
  let list := ensureRemaining list 1
  let array ← setSlot list.array list.numberOfElements pointer
  pure { list with array, numberOfElements := list.numberOfElements + 1 }

/-- The loop of the two removals. -/
def moveDown (array : List (Option α)) (index numberOfElements : Nat) :
    Prog (List (Option α)) :=
  (List.range' index (numberOfElements - 1 - index)).foldlM
    (fun array i => moveSlot array (i + 1) i) array

/-- The loop of the insertion. -/
def moveUp (array : List (Option α)) (index length : Nat) : Prog (List (Option α)) :=
  (List.range' index (length - index)).foldlM (fun array i => moveSlot array i (i + 1)) array

/-- The check of an index in `parcArrayList_RemoveAtIndex`, `parcArrayList_Set` and
`parcArrayList_Get`. -/
def checkIndex : Prog Unit :=
  trapOutOfBoundsIf (index ≥ list.numberOfElements)
    s!"Index must be within the range [0, {list.numberOfElements})"

def parcArrayListRemoveAtIndex : Prog (α × PARCArrayList α) := do
  checkIndex list index
  let element ← slot list.array index
  let array ← moveDown list.array index list.numberOfElements
  pure (element, { list with array, numberOfElements := list.numberOfElements - 1 })

def parcArrayListSet (pointer : α) : Prog (PARCArrayList α) := do
  checkIndex list index
  pure { list with array := ← setSlot list.array index pointer }

def parcArrayListGet : Prog α := do
  checkIndex list index
  slot list.array index

def destroySlot : Prog (List (Option α)) :=
  match list.destroyElement with
  | some destroy => do setSlot list.array index (destroy (← slot list.array index))
  | none => pure list.array

def parcArrayListRemoveAndDestroyAtIndex : Prog (PARCArrayList α) := do
  assertTrue (index < list.numberOfElements)
    s!"Index must be ( 0 <= index < {list.numberOfElements}). Actual={index}"
  let array ← destroySlot list index
  let array ← moveDown array index list.numberOfElements
  pure { list with array, numberOfElements := list.numberOfElements - 1 }

def parcArrayListInsertAtIndex (pointer : α) : Prog (PARCArrayList α) := do
  let length := parcArrayListSize list
  assertTrue (index ≤ list.numberOfElements) "You can't insert beyond the end of the list"
  let list := ensureRemaining list (length + 1)
  let array ← moveUp list.array index length
  pure { list with
    array := ← setSlot array index pointer
    numberOfElements := list.numberOfElements + 1 }

/-- `parcArrayList_Size(array) - 1`, a `size_t`. -/
def lastIndex : Nat :=
  if parcArrayListSize list = 0 then 2 ^ 64 - 1 else parcArrayListSize list - 1

def parcArrayListPop : Prog (α × PARCArrayList α) :=
  parcArrayListRemoveAtIndex list (lastIndex list)

def parcArrayListClear : Prog (PARCArrayList α) :=
  Exec.loop (fun list => do
    if parcArrayListIsEmpty list then
      pure (.inr list)
    else
      pure (.inl (← parcArrayListRemoveAndDestroyAtIndex list (lastIndex list)))) list

end

/-! ## What a list holds -/

/-- The list holds a sequence: its elements are in the first slots of an array that has as many
slots as the limit says. -/
structure Holds (list : PARCArrayList α) (xs : List α) : Prop where
  size : list.numberOfElements = xs.length
  limit : list.array.length = list.limit
  array : ∃ rest, list.array = xs.map some ++ rest

theorem Holds.create (destroy : Option (α → α)) : Holds (parcArrayListCreate destroy) [] :=
  ⟨rfl, rfl, [], rfl⟩

section
variable {l : PARCArrayList α} {xs ys : List α} {a : α}

theorem Holds.room (h : Holds l xs) : xs.length ≤ l.limit := by
  obtain ⟨rest, hr⟩ := h.array
  rw [← h.limit, hr, length_append, length_map]
  exact Nat.le_add_right _ _

theorem Holds.unique (h : Holds l xs) (h' : Holds l ys) : xs = ys := by
  obtain ⟨rest, hr⟩ := h.array
  obtain ⟨rest', hr'⟩ := h'.array
  have hl : (xs.map some).length = (ys.map some).length := by
    rw [length_map, length_map, ← h.size, ← h'.size]
  have hm := (append_inj (hr.symm.trans hr') hl).1
  exact map_injective_iff.mpr (fun _ _ => some.inj) hm

theorem ensureRemaining_holds (h : Holds l xs) (remnant : Nat) :
    Holds (ensureRemaining l remnant) xs ∧
      xs.length + remnant ≤ (ensureRemaining l remnant).array.length := by
  obtain ⟨rest, hr⟩ := h.array
  have hl := h.limit
  have hs := h.size
  unfold ensureRemaining remaining
  split
  · have hle : (ensureCapacity l (l.numberOfElements + remnant)).array.length =
        xs.length + remnant := by
      simp only [ensureCapacity, rplRealloc, length_append, length_take, length_replicate]
      omega
    refine ⟨⟨hs, by rw [hle, ← hs]; rfl, ?_⟩, hle.ge⟩
    simp only [ensureCapacity, rplRealloc, hr, hs]
    rw [take_append, take_of_length_le (by simp), append_assoc]
    exact ⟨_, rfl⟩
  · have hro := h.room
    exact ⟨h, by omega⟩

theorem Holds.limit_ensureRemaining (h : Holds l xs) (remnant : Nat) :
    (ensureRemaining l remnant).limit = max l.limit (xs.length + remnant) := by
  have hr := h.room
  unfold ensureRemaining remaining
  rw [h.size]
  split
  · show xs.length + remnant = _
    omega
  · omega

theorem Holds.createCapacity (destroy : Option (α → α)) (size : Nat) :
    Holds (parcArrayListCreateCapacity destroy size) [] :=
  (ensureRemaining_holds (.create destroy) size).1

/-! ## The loops -/

theorem slot_append {pre a} {rest : List (Option α)} {i}
    (hi : i = pre.length) : slot (pre ++ some a :: rest) i = pure a := by
  subst hi
  simp [slot]

theorem setSlot_append {pre s rest i} {a : α} (hi : i = pre.length) :
    setSlot (pre ++ s :: rest) i a = pure (pre ++ some a :: rest) := by
  subst hi
  simp [setSlot]

theorem moveDown_eq (pre : List (Option α)) (a : α) (ys : List α) (rest : List (Option α)) :
    ∃ rest', moveDown (pre ++ some a :: (ys.map some ++ rest)) pre.length
        (pre.length + 1 + ys.length) = pure (pre ++ (ys.map some ++ rest')) ∧
      rest'.length = rest.length + 1 := by
  unfold moveDown
  have hc : pre.length + 1 + ys.length - 1 - pre.length = ys.length := by omega
  rw [hc]
  -- The elements still to be moved are `ys`; `a` is what the slot before them holds.
  induction ys generalizing pre a with
  | nil => exact ⟨some a :: rest, rfl, rfl⟩
  | cons y ys ih =>
    obtain ⟨rest', hr', hl⟩ := ih (pre ++ [some y]) y (by simp)
    refine ⟨rest', ?_, hl⟩
    have hr : slot (pre ++ some a :: some y :: (ys.map some ++ rest)) (pre.length + 1) =
        pure y := by
      simp [slot]
    rw [length_cons, range'_succ, foldlM_cons, map_cons, cons_append,
      moveSlot, hr, pure_bind, setSlot_append rfl, pure_bind]
    simpa using hr'

theorem moveUp_eq (pre : List (Option α)) (a : α) (m : Nat) {rest : List (Option α)}
    (hm : m ≤ rest.length) :
    moveUp (pre ++ some a :: rest) pre.length (pre.length + m) =
      pure (pre ++ some a :: (replicate m (some a) ++ rest.drop m)) := by
  unfold moveUp
  rw [Nat.add_sub_cancel_left]
  induction m generalizing pre rest with
  | zero => rfl
  | succ m ih =>
    obtain ⟨s, rest, rfl⟩ := exists_cons_of_length_pos (Nat.zero_lt_of_lt hm)
    have hw : setSlot (pre ++ some a :: s :: rest) (pre.length + 1) a =
        pure (pre ++ some a :: some a :: rest) := by
      simp [setSlot]
    have hr := ih (pre ++ [some a]) (Nat.le_of_succ_le_succ hm)
    rw [range'_succ, foldlM_cons, moveSlot, slot_append rfl, pure_bind, hw, pure_bind]
    simpa [replicate_succ] using hr

/-! ## What each call leaves -/

theorem Holds.next_slot (h : Holds l xs) (hr : xs.length + 1 ≤ l.array.length) :
    ∃ s rest, l.array = xs.map some ++ s :: rest := by
  obtain ⟨rest, hre⟩ := h.array
  rw [hre, length_append, length_map] at hr
  obtain ⟨s, rest, rfl⟩ := exists_cons_of_length_pos (Nat.lt_of_add_lt_add_left hr)
  exact ⟨s, rest, hre⟩

theorem add_holds (h : Holds l xs) (ptr : α) :
    ∃ l', parcArrayListAdd l ptr = pure l' ∧ Holds l' (xs ++ [ptr]) ∧
      l'.limit = max l.limit (xs.length + 1) := by
  obtain ⟨h', hr⟩ := ensureRemaining_holds h 1
  obtain ⟨s, rest, hre⟩ := h'.next_slot hr
  have hl := h'.limit
  have hw : setSlot (xs.map some ++ s :: rest) xs.length ptr = pure _ := setSlot_append (by simp)
  refine ⟨⟨xs.map some ++ some ptr :: rest, xs.length + 1, (ensureRemaining l 1).limit,
    (ensureRemaining l 1).destroyElement⟩, ?_, ?_⟩
  · unfold parcArrayListAdd
    simp only [h'.size, hre, hw, pure_bind]
  · exact ⟨⟨by simp, by simpa [hre] using hl, rest, by simp⟩, h.limit_ensureRemaining 1⟩

/-- What the insertion leaves behind the new element. -/
def overwritten : List α → List α
  | [] => []
  | y :: ys => List.replicate (ys.length + 1) y

@[simp] theorem overwritten_length (ys : List α) : (overwritten ys).length = ys.length := by
  cases ys with
  | nil => rfl
  | cons y ys => simp [overwritten]

theorem moveUp_holds (h : Holds l (xs ++ ys)) (hr : (xs ++ ys).length + 1 ≤ l.array.length) :
    ∃ s rest, moveUp l.array xs.length (xs ++ ys).length =
        pure (xs.map some ++ s :: ((overwritten ys).map some ++ rest)) ∧
      xs.length + ys.length + 1 + rest.length = l.limit := by
  obtain ⟨s, rest, hre⟩ := h.next_slot hr
  have hl := h.limit
  rw [hre] at hl ⊢
  cases ys with
  | nil =>
    refine ⟨s, rest, by simp [moveUp, overwritten], ?_⟩
    simp at hl ⊢
    omega
  | cons y ys =>
    have hle : ys.length + 1 ≤ (ys.map some ++ s :: rest).length := by simp
    have hm := moveUp_eq (xs.map some) y (ys.length + 1) hle
    refine ⟨some y, (ys.map some ++ s :: rest).drop (ys.length + 1), ?_, ?_⟩
    · simpa [overwritten] using hm
    · simp at hl ⊢
      omega

theorem insertAtIndex_holds (h : Holds l (xs ++ ys)) (ptr : α) :
    ∃ l', parcArrayListInsertAtIndex l xs.length ptr = pure l' ∧
      Holds l' (xs ++ ptr :: overwritten ys) ∧
      l'.limit = max l.limit ((xs ++ ys).length + ((xs ++ ys).length + 1)) := by
  obtain ⟨h', hr⟩ := ensureRemaining_holds h ((xs ++ ys).length + 1)
  have hs := h'.size
  obtain ⟨s, rest, hm, hl⟩ := moveUp_holds h' (by omega)
  have hi : decide (xs.length ≤ (xs ++ ys).length) = true := by simp
  have hw : setSlot (xs.map some ++ s :: ((overwritten ys).map some ++ rest)) xs.length
      ptr = pure _ := setSlot_append (by simp)
  refine ⟨{ ensureRemaining l ((xs ++ ys).length + 1) with
    array := xs.map some ++ some ptr :: ((overwritten ys).map some ++ rest)
    numberOfElements := (xs ++ ys).length + 1 }, ?_, ?_⟩
  · unfold parcArrayListInsertAtIndex parcArrayListSize
    rw [h.size, assertTrue_of hi, pure_bind]
    simp only [hm, hw, hs, pure_bind]
  · refine ⟨⟨by simp; omega, Eq.trans ?_ hl, rest, by simp⟩, h.limit_ensureRemaining _⟩
    simp
    omega

theorem checkIndex_eq (h : Holds l (xs ++ a :: ys)) : checkIndex l xs.length = pure () := by
  refine trapOutOfBoundsIf_of_not ?_
  simp [h.size]

theorem checkIndex_trap (h : Holds l xs) {i} (hi : xs.length ≤ i) :
    ∃ text, checkIndex l i = throw (.outOfBounds text) :=
  ⟨_, if_pos (h.size.trans_le hi)⟩

theorem slot_holds (h : Holds l (xs ++ a :: ys)) : slot l.array xs.length = pure a := by
  obtain ⟨rest, hr⟩ := h.array
  rw [hr, map_append, map_cons, append_assoc, cons_append]
  exact slot_append (by simp)

theorem get_holds (h : Holds l xs) {i} (hi : i < xs.length) :
    parcArrayListGet l i = pure xs[i] := by
  have hs : xs.take i ++ xs[i] :: xs.drop (i + 1) = xs := by
    rw [getElem_cons_drop, take_append_drop]
  rw [← hs] at h
  have hc := checkIndex_eq h
  have hsl := slot_holds h
  rw [length_take_of_le hi.le] at hc hsl
  rw [parcArrayListGet, hc, pure_bind, hsl]

/-- The array list of a sequence, with no room for more. -/
def PARCArrayList.ofList (xs : List α) : PARCArrayList α :=
  ⟨xs.map some, xs.length, xs.length, none⟩

theorem get_ofList {xs : List α} {i} (hi : i < xs.length) :
    parcArrayListGet (.ofList xs) i = pure xs[i] :=
  get_holds ⟨rfl, length_map _, [], (append_nil _).symm⟩ hi

section
variable (h : Holds l (xs ++ a :: ys))
include h

theorem setSlot_holds (ptr : α) :
    ∃ array, setSlot l.array xs.length ptr = pure array ∧
      Holds { l with array } (xs ++ ptr :: ys) := by
  obtain ⟨rest, hr⟩ := h.array
  have hl := h.limit
  have hw : setSlot (xs.map some ++ some a :: (ys.map some ++ rest)) xs.length ptr =
      pure _ := setSlot_append (by simp)
  refine ⟨xs.map some ++ some ptr :: (ys.map some ++ rest), ?_, ?_⟩
  · rw [hr, ← hw]
    simp
  · refine ⟨by simpa using h.size, ?_, rest, by simp⟩
    simpa [hr] using hl

theorem moveDown_holds :
    ∃ array, moveDown l.array xs.length l.numberOfElements = pure array ∧
      Holds { l with array, numberOfElements := l.numberOfElements - 1 } (xs ++ ys) := by
  obtain ⟨rest, hr⟩ := h.array
  have hl := h.limit
  have hs : l.numberOfElements = xs.length + 1 + ys.length := by
    rw [h.size]
    simp
    omega
  obtain ⟨rest', hm, hle⟩ := moveDown_eq (xs.map some) a ys rest
  refine ⟨xs.map some ++ (ys.map some ++ rest'), ?_, ?_⟩
  · rw [hr, hs, ← hm]
    simp
  · refine ⟨?_, ?_, rest', by simp⟩
    · simp [hs]
    · simp [hr] at hl
      simp [hle]
      omega

theorem removeAtIndex_holds :
    ∃ l', parcArrayListRemoveAtIndex l xs.length = pure (a, l') ∧ Holds l' (xs ++ ys) ∧
      l'.limit = l.limit := by
  obtain ⟨arr, hm, h'⟩ := moveDown_holds h
  refine ⟨_, ?_, h', rfl⟩
  unfold parcArrayListRemoveAtIndex
  rw [checkIndex_eq h, pure_bind, slot_holds h, pure_bind, hm, pure_bind]

theorem destroySlot_holds :
    ∃ array b, destroySlot l xs.length = pure array ∧
      Holds { l with array } (xs ++ b :: ys) := by
  unfold destroySlot
  split
  · obtain ⟨array, hw, h'⟩ := setSlot_holds h (‹α → α› a)
    exact ⟨array, _, by rw [slot_holds h, pure_bind, hw], h'⟩
  · exact ⟨l.array, a, rfl, h⟩

theorem removeAndDestroyAtIndex_holds :
    ∃ l', parcArrayListRemoveAndDestroyAtIndex l xs.length = pure l' ∧ Holds l' (xs ++ ys) ∧
      l'.limit = l.limit := by
  have hi : decide (xs.length < l.numberOfElements) = true := by simp [h.size]
  obtain ⟨arr, b, hd, h'⟩ := destroySlot_holds h
  obtain ⟨a', hm, h''⟩ := moveDown_holds h'
  refine ⟨_, ?_, h'', rfl⟩
  unfold parcArrayListRemoveAndDestroyAtIndex
  rw [assertTrue_of hi, pure_bind, hd, pure_bind, hm, pure_bind]

end

theorem lastIndex_eq (h : Holds l (xs ++ [a])) : lastIndex l = xs.length := by
  have hs : parcArrayListSize l = xs.length + 1 := by
    rw [parcArrayListSize, h.size]
    simp
  rw [lastIndex, hs, if_neg (Nat.succ_ne_zero _), Nat.add_sub_cancel]

theorem clear_holds (h : Holds l xs) :
    ∃ l', parcArrayListClear l = pure l' ∧ Holds l' [] ∧ l'.limit = l.limit := by
  induction xs using reverseRecOn generalizing l with
  | nil =>
    refine ⟨l, Exec.loop_done ?_, h, rfl⟩
    have he : parcArrayListIsEmpty l = true := by simp [parcArrayListIsEmpty, h.size]
    rw [if_pos he]
  | append_singleton xs a ih =>
    have he : ¬ parcArrayListIsEmpty l = true := by simp [parcArrayListIsEmpty, h.size]
    obtain ⟨l', hr, h', hl⟩ := removeAndDestroyAtIndex_holds h
    rw [append_nil] at h'
    obtain ⟨l'', hc, h'', hl'⟩ := ih h'
    refine ⟨l'', ?_, h'', hl'.trans hl⟩
    rw [← hc]
    refine Exec.loop_next ?_
    rw [if_neg he, lastIndex_eq h, hr, pure_bind]

end

/-! ## Runs -/

inductive Call (α : Type) where
  | add (pointer : α)
  | insertAtIndex (index : Nat) (pointer : α)
  | removeAtIndex (index : Nat)
  | set (index : Nat) (pointer : α)
  | pop
  | get (index : Nat)
  | clear
  | size

inductive Result (α : Type) where
  | done
  | element (pointer : α)
  | size (n : Nat)

def Call.run (list : PARCArrayList α) : Call α → Prog (Result α × PARCArrayList α)
  | .add pointer => do pure (.done, ← parcArrayListAdd list pointer)
  | .insertAtIndex index pointer => do
    pure (.done, ← parcArrayListInsertAtIndex list index pointer)
  | .removeAtIndex index => do
    let (element, list) ← parcArrayListRemoveAtIndex list index
    pure (.element element, list)
  | .set index pointer => do pure (.done, ← parcArrayListSet list index pointer)
  | .pop => do
    let (element, list) ← parcArrayListPop list
    pure (.element element, list)
  | .get index => do pure (.element (← parcArrayListGet list index), list)
  | .clear => do pure (.done, ← parcArrayListClear list)
  | .size => pure (.size (parcArrayListSize list), list)

/-- What a call does to a sequence, or `none` if the index is not one of the sequence. -/
def Call.apply (xs : List α) : Call α → Option (Result α × List α)
  | .add pointer => some (.done, xs ++ [pointer])
  | .insertAtIndex index pointer =>
    if index ≤ xs.length then some (.done, xs.take index ++ pointer :: xs.drop index) else none
  | .removeAtIndex index => (xs[index]?).map fun a => (.element a, xs.eraseIdx index)
  | .set index pointer => (xs[index]?).map fun _ => (.done, xs.set index pointer)
  | .pop => (xs.getLast?).map fun a => (.element a, xs.dropLast)
  | .get index => (xs[index]?).map fun a => (.element a, xs)
  | .clear => some (.done, [])
  | .size => some (.size xs.length, xs)

/-- A call, with the copy of a reallocation checked. Nothing is copied from an array that is
NULL, which is one without slots. -/
def Call.checked (list : PARCArrayList α) (call : Call α) : Prog (Result α × PARCArrayList α) := do
  let (result, list') ← call.run list
  if list.limit ≠ 0 then copyInside list.array list'.limit
  pure (result, list')

/-- The slots that a sequence has after a call, if it has `capacity` before: an insertion asks
for room for the whole sequence once more. -/
def Call.capacity (xs : List α) (capacity : Nat) : Call α → Nat
  | .add _ => max capacity (xs.length + 1)
  | .insertAtIndex index _ =>
    if index ≤ xs.length then max capacity (xs.length + (xs.length + 1)) else capacity
  | _ => capacity

/-- What a call does to a sequence and to the number of its slots. -/
def Call.applyIn (t : List α × Nat) (call : Call α) : Option (Result α × List α × Nat) :=
  (call.apply t.1).map fun r => (r.1, r.2, call.capacity t.1 t.2)

/-- The list holds the sequence in so many slots. -/
def HoldsIn (list : PARCArrayList α) (t : List α × Nat) : Prop :=
  Holds list t.1 ∧ list.limit = t.2

/-- The elements from the index of an insertion on are all one and the same pointer. -/
def Call.Same (xs : List α) : Call α → Prop
  | .insertAtIndex index _ => ∀ a ∈ xs.drop index, ∀ b ∈ xs.drop index, a = b
  | _ => True

/-- A call is safe if it needs no more slots than there are, or makes the first ones, and an
insertion has the same pointers behind it. -/
def Call.Safe (t : List α × Nat) (call : Call α) : Prop :=
  (t.2 = 0 ∨ call.capacity t.1 t.2 ≤ t.2) ∧ call.Same t.1

theorem overwritten_eq_iff (ys : List α) : overwritten ys = ys ↔ ∀ a ∈ ys, ∀ b ∈ ys, a = b := by
  cases ys with
  | nil => simp [overwritten]
  | cons y ys =>
    rw [overwritten, eq_comm, replicate_succ, cons_inj_right, eq_replicate_iff]
    constructor
    · intro ⟨_, hal⟩ a ha b hb
      have hy : ∀ c ∈ y :: ys, c = y := forall_mem_cons.mpr ⟨rfl, hal⟩
      rw [hy a ha, hy b hb]
    · intro hal
      exact ⟨rfl, fun b hb => hal b (.tail _ hb) y (.head _)⟩

section
variable {ls : PARCArrayList α} {xs : List α}

theorem split_at {index a} (ha : xs[index]? = some a) :
    ∃ ys zs, xs = ys ++ a :: zs ∧ ys.length = index := by
  obtain ⟨hlt, rfl⟩ := List.getElem?_eq_some_iff.mp ha
  refine ⟨xs.take index, xs.drop (index + 1), ?_, length_take_of_le hlt.le⟩
  rw [getElem_cons_drop, take_append_drop]

theorem Call.run_holds (h : Holds ls xs) {call : Call α} {r xs'}
    (hap : call.apply xs = some (r, xs')) :
    ∃ l', call.run ls = pure (r, l') ∧ (Holds l' xs' ↔ call.Same xs) ∧
      l'.limit = call.capacity xs ls.limit := by
  cases call with
  | add ptr =>
    cases hap
    obtain ⟨l', had, h', hl⟩ := add_holds h ptr
    exact ⟨l', by rw [Call.run, had]; rfl, iff_of_true h' trivial, hl⟩
  | insertAtIndex i ptr =>
    obtain ⟨hi, heq⟩ := ite_none_right_eq_some.mp hap
    cases heq
    rw [← take_append_drop i xs] at h
    obtain ⟨l', hin, h', hl⟩ := insertAtIndex_holds h ptr
    rw [length_take_of_le hi] at hin
    rw [take_append_drop] at hl
    refine ⟨l', by rw [Call.run, hin]; rfl, ⟨fun h'' => ?_, fun hs => ?_⟩, ?_⟩
    · have heq := append_cancel_left (h'.unique h'')
      exact (overwritten_eq_iff _).mp (cons_inj_right _ |>.mp heq)
    · rwa [(overwritten_eq_iff _).mpr hs] at h'
    · rw [hl, Call.capacity, if_pos hi]
  | removeAtIndex i =>
    obtain ⟨a, ha, heq⟩ := map_eq_some_iff.mp hap
    cases heq
    obtain ⟨ys, zs, rfl, rfl⟩ := split_at ha
    obtain ⟨l', hr, h', hl⟩ := removeAtIndex_holds h
    refine ⟨l', by rw [Call.run, hr]; rfl, iff_of_true ?_ trivial, hl⟩
    simpa [eraseIdx_append_of_length_le] using h'
  | set i ptr =>
    obtain ⟨a, ha, heq⟩ := map_eq_some_iff.mp hap
    cases heq
    obtain ⟨ys, zs, rfl, rfl⟩ := split_at ha
    obtain ⟨arr, hse, h'⟩ := setSlot_holds h ptr
    refine ⟨{ ls with array := arr }, ?_, iff_of_true (by simpa using h') trivial, rfl⟩
    rw [Call.run, parcArrayListSet, checkIndex_eq h, pure_bind, hse]
    rfl
  | pop =>
    obtain ⟨a, ha, heq⟩ := map_eq_some_iff.mp hap
    cases heq
    obtain ⟨ys, rfl⟩ := getLast?_eq_some_iff.mp ha
    obtain ⟨l', hr, h', hl⟩ := removeAtIndex_holds h
    refine ⟨l', ?_, iff_of_true (by simpa using h') trivial, hl⟩
    rw [Call.run, parcArrayListPop, lastIndex_eq h, hr]
    rfl
  | get i =>
    obtain ⟨a, ha, heq⟩ := map_eq_some_iff.mp hap
    cases heq
    obtain ⟨hi, rfl⟩ := List.getElem?_eq_some_iff.mp ha
    exact ⟨ls, by rw [Call.run, get_holds h hi]; rfl, iff_of_true h trivial, rfl⟩
  | clear =>
    cases hap
    obtain ⟨l', hc, h', hl⟩ := clear_holds h
    exact ⟨l', by rw [Call.run, hc]; rfl, iff_of_true h' trivial, hl⟩
  | size =>
    cases hap
    exact ⟨ls, by rw [← h.size]; rfl, iff_of_true h trivial, rfl⟩

theorem Call.run_refused (h : Holds ls xs) {call : Call α} (ha : call.apply xs = none) :
    ∃ e, call.run ls = throw e ∧ e ≠ .memoryFault := by
  cases call with
  | add _ | clear | size => cases ha
  | insertAtIndex index ptr =>
    have hi : ¬ index ≤ ls.numberOfElements := by simpa [Call.apply, h.size] using ha
    refine ⟨.assertion "You can't insert beyond the end of the list", ?_, by simp⟩
    rw [Call.run, parcArrayListInsertAtIndex, decide_eq_false hi]
    rfl
  | removeAtIndex index | set index _ | get index =>
    obtain ⟨text, ht⟩ := checkIndex_trap (i := index) h (by simpa [Call.apply] using ha)
    refine ⟨.outOfBounds text, ?_, nofun⟩
    simp only [Call.run, parcArrayListRemoveAtIndex, parcArrayListSet, parcArrayListGet, ht]
    rfl
  | pop =>
    have hxs : xs = [] := by simpa [Call.apply] using ha
    subst hxs
    obtain ⟨text, ht⟩ := checkIndex_trap (i := lastIndex ls) h (Nat.zero_le _)
    refine ⟨.outOfBounds text, ?_, nofun⟩
    rw [Call.run, parcArrayListPop, parcArrayListRemoveAtIndex, ht]
    rfl

theorem Call.safe_of_none {t : List α × Nat} {call : Call α} (ha : call.apply t.1 = none) :
    call.Safe t := by
  cases call with
  | insertAtIndex index ptr =>
    have hi : ¬ index ≤ t.1.length := fun hle => by simp [Call.apply, hle] at ha
    refine ⟨.inr (by rw [Call.capacity, if_neg hi]), ?_⟩
    rw [Call.Same, drop_eq_nil_of_le (Nat.le_of_not_le hi)]
    simp
  | add _ | clear | size => cases ha
  | _ => exact ⟨.inr (Nat.le_refl _), trivial⟩

theorem Call.checked_holds {t : List α × Nat} (h : HoldsIn ls t) {call : Call α} {r t'}
    (hap : call.applyIn t = some (r, t')) :
    (call.Safe t → ∃ l', call.checked ls = pure (r, l') ∧ HoldsIn l' t') ∧
      (¬ call.Safe t → ∀ l', call.checked ls = pure (r, l') → ¬ HoldsIn l' t') := by
  obtain ⟨⟨r, xs'⟩, ha, heq⟩ := map_eq_some_iff.mp hap
  cases heq
  obtain ⟨l', hr, hh, hl⟩ := Call.run_holds h.1 ha
  rw [h.2] at hl
  have hc : call.checked ls = if t.2 = 0 ∨ call.capacity t.1 t.2 ≤ t.2 then pure (r, l')
      else throw .memoryFault := by
    simp only [Call.checked, hr, pure_bind, copyInside, h.1.limit, hl, h.2]
    by_cases hz : t.2 = 0
    · simp [hz]
    · by_cases hle : call.capacity t.1 t.2 ≤ t.2
      · simp [hz, hle]
      · rw [if_pos hz, if_neg hle, if_neg (not_or.mpr ⟨hz, hle⟩)]
        rfl
  by_cases hin : t.2 = 0 ∨ call.capacity t.1 t.2 ≤ t.2
  · rw [if_pos hin] at hc
    refine ⟨fun hs => ⟨l', hc, hh.mpr hs.2, hl⟩, fun hs l'' hr' hh' => hs ⟨hin, hh.mp ?_⟩⟩
    rw [hc, Exec.pure_inj] at hr'
    cases hr'
    exact hh'.1
  · rw [if_neg hin] at hc
    refine ⟨fun hs => absurd hs.1 hin, fun _ l'' hr' => ?_⟩
    rw [hc] at hr'
    cases hr'

theorem conforms_iff_safeCalls {t : List α × Nat} (h : HoldsIn ls t) (calls : List (Call α)) :
    Conforms Call.checked Call.applyIn HoldsIn (· ≠ .memoryFault) ls t calls ↔
      SafeCalls Call.applyIn Call.Safe t calls := by
  refine conforms_iff ?_ ?_ ?_ h calls
  · intro ls t call r t' h hs ha
    exact (Call.checked_holds h ha).1 hs
  · intro ls t call h _ ha
    obtain ⟨e, he, hn⟩ := Call.run_refused h.1 (Option.map_eq_none_iff.mp ha)
    exact ⟨e, by rw [Call.checked, he]; rfl, hn⟩
  · intro ls t call h hb
    cases ha : call.applyIn t with
    | none => exact absurd (Call.safe_of_none (Option.map_eq_none_iff.mp ha)) hb
    | some res => exact ⟨res.1, res.2, rfl, (Call.checked_holds h ha).2 hb⟩

end

/-- A new list, with or without a capacity. -/
def created (destroyElement : Option (α → α)) : Option Nat → PARCArrayList α
  | none => parcArrayListCreate destroyElement
  | some size => parcArrayListCreateCapacity destroyElement size

theorem created_holds (destroy : Option (α → α)) (cap : Option Nat) :
    HoldsIn (created destroy cap) ([], cap.getD 0) := by
  cases cap with
  | none => exact ⟨.create destroy, rfl⟩
  | some size =>
    refine ⟨.createCapacity destroy size, ?_⟩
    rw [created, parcArrayListCreateCapacity, (Holds.create destroy).limit_ensureRemaining]
    simp [parcArrayListCreate]

/-- **An array list behaves as a sequence of pointers** in every call of a run, with no access
outside its array, exactly if the array does not grow once it is allocated, and the elements
from the index of each insertion on are all one and the same pointer. -/
theorem calls_conform_iff (destroyElement : Option (α → α)) (capacity : Option Nat)
    (calls : List (Call α)) :
    Conforms Call.checked Call.applyIn HoldsIn (· ≠ .memoryFault)
        (created destroyElement capacity) ([], capacity.getD 0) calls ↔
      SafeCalls Call.applyIn Call.Safe ([], capacity.getD 0) calls :=
  conforms_iff_safeCalls (created_holds destroyElement capacity) calls

/-- An insertion in front of `1, 2`: the `2` is gone and the `1` is there twice, even if there is
room for it. Without a capacity the second element is too much for the array. -/
theorem insertAtIndex_overwrites :
    (do
      let list ← parcArrayListAdd (parcArrayListCreate none) 1
      let list ← parcArrayListAdd list 2
      let list ← parcArrayListInsertAtIndex list 0 3
      pure [← parcArrayListGet list 0, ← parcArrayListGet list 1, ← parcArrayListGet list 2]) =
        (pure [3, 1, 1] : Prog (List Nat)) ∧
      ¬ Conforms Call.checked Call.applyIn HoldsIn (· ≠ .memoryFault) (created none (some 5))
        ([], 5) [.add 1, .add 2, .insertAtIndex 0 3] ∧
      ¬ Conforms Call.checked Call.applyIn HoldsIn (· ≠ .memoryFault) (created none none)
        ([], 0) [.add 1, .add 2] := by
  refine ⟨rfl, ?_, ?_⟩
  · refine (conforms_iff_safeCalls (created_holds none (some 5)) _).not.mpr ?_
    simp [SafeCalls, Call.applyIn, Call.apply, Call.Safe, Call.capacity, Call.Same]
  · refine (conforms_iff_safeCalls (created_holds none none) _).not.mpr ?_
    simp [SafeCalls, Call.applyIn, Call.apply, Call.Safe, Call.capacity]

end Libparc.ArrayList
