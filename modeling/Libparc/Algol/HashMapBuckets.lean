import Libparc.Algol.HashMapEquals
import Libparc.Algol.HashMapIterator
import Libparc.Algol.LinkedListCalls

/-! # The buckets of a hash map as linked lists

A bucket is the sequence of its entries in the model of the map. In the source it is a
`PARCLinkedList`, which the map appends to, walks with an iterator, copies and compares. On a
list in memory these calls do what the model does with the sequence. -/
namespace Libparc.LinkedList
open DoublyLinked Exec List

variable {α σ : Type} (equals : Option α → Option α → Prog Bool)

/-- A turn of `while (node != NULL) { ...; node = node->next; }`. -/
def forNodesBody (step : σ → α → Prog σ) (list : PARCLinkedList α) :
    Ptr × σ → Prog (Ptr × σ ⊕ σ)
  | (node, s) =>
    if node = NULL then pure (.inr s)
    else do
      let n ← list.nodes.read node
      let s ← step s n.object
      pure (.inl (n.next, s))

def forNodes (step : σ → α → Prog σ) (list : PARCLinkedList α) (s : σ) : Prog σ :=
  Exec.loop (forNodesBody step list) (list.head, s)

def parcLinkedListCopy (A : Allocator) (list : PARCLinkedList α) : Prog (PARCLinkedList α) :=
  forNodes (parcLinkedListAppend A) list parcLinkedListCreate

def parcLinkedListHashCode (hashCode : α → Prog UInt64) (list : PARCLinkedList α) : Prog UInt64 :=
  forNodes (fun result object => do pure (result + (← hashCode object))) list 0

/-- The inner loop of `parcLinkedList_SetEquals`, up to its `break`. -/
def setEqualsBody (y : PARCLinkedList α) (size : Nat)
    (xObject : Option α) (j : Nat) : Prog (Nat ⊕ Unit) :=
  if j < size then do
    if ← equals xObject (← parcLinkedListGetAtIndex y j) then pure (.inl (j + 1))
    else pure (.inr ())
  else pure (.inr ())

def parcLinkedListSetEquals (x y : PARCLinkedList α) : Prog Bool :=
  if x.size = y.size then do
    forM (range x.size) fun i => do
      let xObject ← parcLinkedListGetAtIndex x i
      Exec.loop (setEqualsBody equals y x.size xObject) 0
    pure true
  else pure false

theorem forNodes_eq {list : PARCLinkedList α} {xs} (h : Threaded list xs) (step : σ → α → Prog σ)
    (s : σ) : forNodes step list s = (xs.map Prod.snd).foldlM step s := by
  have hl : ∀ before xs s, Linked list.nodes.cell before xs NULL →
      Exec.loop (forNodesBody step list) (first NULL xs, s) = (xs.map Prod.snd).foldlM step s := by
    intro before xs s h
    induction xs generalizing before s with
    | nil => exact loop_done rfl
    | cons x xs ih =>
      obtain ⟨p, a⟩ := x
      rw [loop_eq, first_cons, forNodesBody, if_neg (Store.ne_null h.1), Store.read_of h.1,
        pure_bind, bind_assoc, map_cons, foldlM_cons]
      exact bind_congr fun s => ih p s h.2
  rw [forNodes, h.head]
  exact hl NULL xs s h.linked

end Libparc.LinkedList

namespace Libparc.HashMap
open LinkedList DoublyLinked Exec List

variable {K V : Type} {keys : KeyObject K} {values : V → V → Bool} {entries : Entries K V}
variable {A : Allocator} {list y : PARCLinkedList Ptr}
variable {xs : List (Ptr × Ptr)} {bucket ys : List Ptr}

/-- A list in memory has the entries of a bucket. -/
def Holds (list : PARCLinkedList Ptr) (bucket : List Ptr) : Prop :=
  ∃ xs, Shaped list xs ∧ xs.map Prod.snd = bucket

section
variable (h : Holds list bucket)
include h

theorem Holds.append (entry : Ptr) :
    ∃ list', parcLinkedListAppend A list entry = pure list' ∧ Holds list' (bucket ++ [entry]) := by
  obtain ⟨xs, hs, rfl⟩ := h
  obtain ⟨list', q, ha, hs'⟩ := append_eq (A := A) hs entry
  exact ⟨list', ha, _, hs', by rw [map_append]; rfl⟩

/-- **`parcLinkedList_Copy` makes a list of the same entries.** -/
theorem Holds.copy :
    ∃ list', parcLinkedListCopy A list = pure list' ∧ Holds list' (copyList bucket) := by
  have hf : ∀ (bucket done : List Ptr) list, Holds list done →
      ∃ list', bucket.foldlM (parcLinkedListAppend A) list = pure list' ∧
        Holds list' (bucket.foldl (fun result entry => result ++ [entry]) done) := by
    intro bucket
    induction bucket with
    | nil => exact fun done list hd => ⟨list, rfl, hd⟩
    | cons entry bucket ih =>
      intro done list hd
      obtain ⟨list', ha, hd'⟩ := hd.append (A := A) entry
      rw [foldlM_cons, ha, pure_bind]
      exact ih _ _ hd'
  obtain ⟨xs, hs, rfl⟩ := h
  rw [parcLinkedListCopy, forNodes_eq hs.toThreaded]
  exact hf _ [] _ ⟨[], Shaped.create, rfl⟩

theorem Holds.hashCode : LinkedList.parcLinkedListHashCode (fun entry => do
      pure (keys.hashCode (← entryAt entries entry).key)) list =
        parcLinkedListHashCode keys entries bucket := by
  obtain ⟨xs, hs, rfl⟩ := h
  rw [LinkedList.parcLinkedListHashCode, forNodes_eq hs.toThreaded, parcLinkedListHashCode]
  simp only [bind_assoc, pure_bind]

theorem Holds.getAtIndex {i} (hi : i < bucket.length) :
    parcLinkedListGetAtIndex list i = pure (some bucket[i]) := by
  obtain ⟨xs, hs, rfl⟩ := h
  rw [length_map] at hi
  rw [getAtIndex_eq hs.toThreaded hi, getElem_map]

theorem Holds.size : list.size = bucket.length := by
  obtain ⟨xs, hs, rfl⟩ := h
  rw [hs.size, length_map]

end

theorem forM_range_eq (bucket : List Ptr) {f : Nat → Prog Unit} {g : Ptr → Prog Unit}
    (h : ∀ i (hi : i < bucket.length), f i = g bucket[i]) :
    forM (range bucket.length) f = bucket.forM g := by
  induction bucket generalizing f with
  | nil => rfl
  | cons entry bucket ih =>
    rw [length_cons, range_succ_eq_map, forM_cons, forM_map, forM_eq_forM, forM_cons,
      ← forM_eq_forM, ← ih fun i hi => h (i + 1) (Nat.succ_lt_succ hi), h 0 (Nat.succ_pos _)]
    rfl

theorem Holds.compareWith (hy : Holds y ys) (xObject : Ptr) {j} (hj : j ≤ ys.length) :
    Exec.loop (setEqualsBody (fun a b => entryEquals keys values entries (a.getD NULL)
        (b.getD NULL)) y ys.length (some xObject)) j =
      HashMap.compareWith keys values entries xObject (ys.drop j) := by
  induction hm : ys.length - j generalizing j with
  | zero =>
    rw [drop_eq_nil_of_le (by omega)]
    exact loop_done (if_neg (by omega))
  | succ m ih =>
    have hlt : j < ys.length := by omega
    rw [loop_eq, setEqualsBody, if_pos hlt, hy.getAtIndex hlt, pure_bind, bind_assoc,
      drop_eq_getElem_cons hlt, HashMap.compareWith]
    refine bind_congr fun same => ?_
    cases same with
    | true => exact ih hlt (by omega)
    | false => rfl

/-- **`parcLinkedList_SetEquals` compares the entries of two lists as it is modelled.** -/
theorem Holds.setEquals (h : Holds list bucket) (hy : Holds y ys) :
    LinkedList.parcLinkedListSetEquals (fun a b =>
        entryEquals keys values entries (a.getD NULL) (b.getD NULL)) list y =
      parcLinkedListSetEquals keys values entries bucket ys := by
  rw [LinkedList.parcLinkedListSetEquals, parcLinkedListSetEquals, h.size, hy.size]
  split
  · rename_i hl
    rw [forM_range_eq bucket fun i hi => ?_]
    rw [h.getAtIndex hi, pure_bind, hl, hy.compareWith _ (Nat.zero_le _)]
    rfl
  · rfl

/-! ## The iterator -/

/-- The node at which an iterator stands that has gone over the first elements. -/
def nodeAt (xs : List (Ptr × Ptr)) (cursor : Nat) : Ptr := last NULL (xs.take cursor)

section
variable (h : Shaped list xs) {cursor : Nat}
include h

theorem listHasNext_eq : LinkedList.iteratorHasNext list (nodeAt xs cursor) =
    pure (listHasNext (xs.map Prod.snd) cursor) := by
  have ht := h.toThreaded
  rw [← take_append_drop cursor xs] at ht
  rw [nodeAt, iteratorHasNext_eq ht, listHasNext, pure_inj, Bool.eq_iff_iff]
  simp

theorem listNext_eq (hc : cursor ≤ xs.length) :
    LinkedList.iteratorNext list (nodeAt xs cursor) = (do
    let (cursor, entry) ← listNext (xs.map Prod.snd) cursor
    pure (nodeAt xs cursor, entry)) := by
  rcases Nat.lt_or_eq_of_le hc with hlt | rfl
  · have ht := h.toThreaded
    rw [← take_append_drop cursor xs, drop_eq_getElem_cons hlt] at ht
    rw [nodeAt, iteratorNext_eq ht, listNext, getElem?_map, getElem?_eq_getElem hlt]
    show _ = pure (nodeAt xs (cursor + 1), _)
    rw [nodeAt, last_take_succ hlt]
    rfl
  · rw [nodeAt, take_length, listNext, getElem?_map, getElem?_eq_none (Nat.le_refl _)]
    rcases eq_nil_or_concat xs with rfl | ⟨zs, ⟨q, b⟩, rfl⟩
    · rw [LinkedList.iteratorNext, last_nil, if_pos rfl, h.head]
      rfl
    · have ht := h.toThreaded
      rw [concat_eq_append] at ht ⊢
      rw [LinkedList.iteratorNext, last_append, last_cons, last_nil, if_neg ht.ne_null_middle,
        nodeIsValid_of ht, pure_bind, assertTrue_true, pure_bind, Store.read_of ht.cell, pure_bind,
        length_append]
      rfl

theorem listRemove_eq (hc : cursor ≤ xs.length) :
    ∃ list' xs', LinkedList.iteratorRemove list (nodeAt xs cursor) =
      pure (nodeAt xs' (listRemove (xs.map Prod.snd) cursor).2, list') ∧ Shaped list' xs' ∧
    xs'.map Prod.snd = (listRemove (xs.map Prod.snd) cursor).1 := by
  cases cursor with
  | zero => exact ⟨list, xs, rfl, h, rfl⟩
  | succ c =>
    have hs := h
    rw [← take_append_drop c xs, drop_eq_getElem_cons hc] at hs
    obtain ⟨list', hr, ht, hta⟩ := iteratorRemove_eq hs.toThreaded
    refine ⟨list', xs.eraseIdx c, ?_, ?_, (eraseIdx_map ..).symm⟩
    · rw [nodeAt, last_take_succ hc]
      refine hr.trans ?_
      show _ = pure (nodeAt (xs.eraseIdx c) c, _)
      rw [nodeAt, take_eraseIdx_eq_take_of_le _ _ _ (Nat.le_refl c)]
    · rw [eraseIdx_eq_take_drop_succ]
      exact ⟨ht, hta hs.tail⟩

end

end Libparc.HashMap
