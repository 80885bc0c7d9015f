import Libparc.Sweep
import Libparc.Algol.ArrayList
import Libparc.Algol.TreeMap

/-! # The iterators of a tree map

An iterator goes over a list of the entries that is made when it is created, and a
removal takes the key of the entry returned last out of the map. To create it, the
first entry of the list is read, which traps if the map is empty. -/
namespace Libparc.TreeMap
open Libparc.RedBlack Libparc.RedBlackNodes Sweep Allocator ArrayList Prod

variable {K V α : Type} (keys : KeyFunctions K)

/-- `_PARCTreeMapIterator`. The list is an array list. -/
structure PARCTreeMapIterator (K V : Type) where
  list : List (K × V)
  currentIndex : Nat
  currentElement : K × V

def iteratorInit (map : RbTree (K × V)) : Prog (PARCTreeMapIterator K V) := do
  let list ← parcTreeMapElements keys map
  pure ⟨list, 0, ← parcArrayListGet (.ofList list) 0⟩

def iteratorHasNext (state : PARCTreeMapIterator K V) : Bool :=
  decide (state.list.length > state.currentIndex)

def iteratorNext (state : PARCTreeMapIterator K V) : Prog (PARCTreeMapIterator K V) := do
  let element ← parcArrayListGet (.ofList state.list) state.currentIndex
  pure ⟨state.list, state.currentIndex + 1, element⟩

def iteratorRemove (map : RbTree (K × V)) (state : PARCTreeMapIterator K V) :
    Prog (RbTree (K × V)) :=
  parcTreeMapRemoveAndRelease keys map (some state.currentElement.1)

/-- The iterators differ in what they return of an entry. -/
def treeMapIterator (element : K × V → α) :
    Interface Trap (RbTree (K × V)) (PARCTreeMapIterator K V) α where
  init := iteratorInit keys
  hasNext _ state := pure (iteratorHasNext state, state)
  next _ state := do
    let state ← iteratorNext state
    pure (state, element state.currentElement)
  remove map state := do
    pure (← iteratorRemove keys map state, state)

def parcTreeMapCreateKeyIterator : Interface Trap (RbTree (K × V)) (PARCTreeMapIterator K V) K :=
  treeMapIterator keys fst

def parcTreeMapCreateValueIterator : Interface Trap (RbTree (K × V)) (PARCTreeMapIterator K V) V :=
  treeMapIterator keys snd

def parcTreeMapCreateKeyValueIterator :
    Interface Trap (RbTree (K × V)) (PARCTreeMapIterator K V) (K × V) :=
  treeMapIterator keys id

/-- The entries `visited` of the list have been returned, `kept` of them are still in the map, and
`rest` are to come. -/
structure StandsAfter (kept rest : List (K × V)) (map : RbTree (K × V))
    (state : PARCTreeMapIterator K V) : Prop where
  tree : ∃ T, TreeInv keys.ops map T ∧ entries map T = kept ++ rest
  list : ∃ visited, state.list = visited ++ rest ∧ state.currentIndex = visited.length

section
variable {keys} {tree : RbTree (K × V)} {T : ColorTree Ptr}

theorem treeMapIterator_lawful (hk : keys.Lawful) (e : K × V → α) :
    Lawful (treeMapIterator keys e) e (StandsAfter keys) where
  done := by
    intro kept map st h
    obtain ⟨vis, hl, hi⟩ := h.list
    refine ⟨st, ?_⟩
    simp [treeMapIterator, iteratorHasNext, hl, hi]
  step := by
    intro kept x rest map st h
    obtain ⟨T, hin, he⟩ := h.tree
    obtain ⟨vis, hl, hi⟩ := h.list
    have hs : keys.compare x.1 x.1 = 0 := hk.total.self _
    have hso : Ascending.Sorted fst keys.compare (entries map T) := hin.sorted
    obtain ⟨map', T', hr, hi', he', -⟩ := removeKey_spec hk.ops hin x.1
    have hre : entries map' T' = kept ++ rest := by
      rw [he] at hso he'
      exact he'.trans (Ascending.remove_equal hk.total hso hs)
    have hl' : st.list = vis ++ [x] ++ rest := by simp [hl]
    have hn : iteratorNext st = pure ⟨st.list, st.currentIndex + 1, x⟩ := by
      rw [iteratorNext, get_ofList (by simp [hl, hi])]
      simp [hl, hi]
    refine ⟨st, ⟨st.list, st.currentIndex + 1, x⟩, ?_, ?_, ⟨⟨T, hin, ?_⟩, ?_⟩, map',
      ⟨st.list, st.currentIndex + 1, x⟩, ?_, ⟨⟨T', hi', hre⟩, ?_⟩⟩
    · simp [treeMapIterator, iteratorHasNext, hl, hi]
    · simp only [treeMapIterator, hn, pure_bind]
    · rw [he]
      simp
    · exact ⟨vis ++ [x], hl', by simp [hi]⟩
    · simp only [treeMapIterator, iteratorRemove, parcTreeMapRemoveAndRelease, assertNotNull_some,
        hr, pure_bind]
    · exact ⟨vis ++ [x], hl', by simp [hi]⟩

theorem parcTreeMapElements_eq (hk : keys.Lawful) (h : TreeInv keys.ops tree T) :
    parcTreeMapElements keys tree = pure (entries tree T) := by
  rw [parcTreeMapElements, collect_spec hk.ops h, List.map_id]

theorem iteratorInit_eq (hk : keys.Lawful) (h : TreeInv keys.ops tree T) :
    iteratorInit keys tree =
      parcArrayListGet (.ofList (entries tree T)) 0 >>= fun e => pure ⟨entries tree T, 0, e⟩ := by
  rw [iteratorInit, parcTreeMapElements_eq hk h, pure_bind]

end

/-- Driven by HasNext and Next, the iterator returns every entry once in ascending order and then
has no next one. The entries after which Remove is called are gone from the map, and the map shows
the others as before. -/
def IteratesRight (iterator : Interface Trap (RbTree (K × V)) (PARCTreeMapIterator K V) α)
    (element : K × V → α) (tree : RbTree (K × V)) : Prop :=
  ∀ choose, ∃ es tree' state, parcTreeMapElements keys tree = pure es ∧
    es.Pairwise (fun e e' => keys.compare e.1 e'.1 < 0) ∧
    sweep iterator choose tree = pure (tree', state, es.map element) ∧
    parcTreeMapElements keys tree' = pure (unchosen choose 0 es) ∧
    Shows keys tree'
      (fun k => (Ascending.find fst keys.compare k (unchosen choose 0 es)).map snd)
      ((unchosen choose 0 es).map fst)

section
variable {keys} {tree : RbTree (K × V)} {T : ColorTree Ptr}

theorem iteratesRight_iff (hk : keys.Lawful) (h : TreeInv keys.ops tree T) (x : K × V → α) :
    IteratesRight keys (treeMapIterator keys x) x tree ↔ entries tree T ≠ [] := by
  have hi := iteratorInit_eq hk h
  constructor
  · intro hr hn
    obtain ⟨es, tree', st, -, -, hs, -⟩ := hr fun _ => false
    obtain ⟨st0, hst, -⟩ := Exec.bind_eq_pure.mp hs
    rw [hn] at hi
    exact Exec.throw_ne_pure (hi.symm.trans hst)
  · intro hne choose
    obtain ⟨e, es, he⟩ := List.exists_cons_of_ne_nil hne
    have hsr : (treeMapIterator keys x).init tree = pure ⟨entries tree T, 0, e⟩ := by
      show iteratorInit keys tree = _
      rw [hi, he]
      rfl
    obtain ⟨tree', st0, st', hs, hen, -⟩ := sweep_eq (treeMapIterator_lawful hk x) choose hsr
        (show StandsAfter keys [] (entries tree T) tree _ from ⟨⟨T, h, rfl⟩, ⟨[], rfl, rfl⟩⟩)
    obtain ⟨T', hi', he'⟩ := hen.tree
    rw [List.append_nil] at he'
    have hsi : Simulates keys tree' T'
        (fun k => (Ascending.find fst keys.compare k (entries tree' T')).map snd) :=
      ⟨hi', fun _ => rfl⟩
    have hsh := hsi.shows hk
    rw [he'] at hsh
    refine ⟨entries tree T, tree', st', parcTreeMapElements_eq hk h, h.sorted, hs, ?_, hsh⟩
    rw [parcTreeMapElements_eq hk hi', he']

end

/-- **The iterators of a tree map** that calls make of a new one go over it in ascending order and
remove what is chosen, exactly if the map is not empty. -/
theorem treeMap_iterators_iff (A : Allocator) (hk : keys.Lawful) (calls : List (Call K V)) :
    ∃ tree ks, runCalls keys A (parcTreeMapCreateCustom A) calls =
        pure (tree, (specCalls keys (fun _ => none) calls).2) ∧
      Shows keys tree (specCalls keys (fun _ => none) calls).1 ks ∧
      (IteratesRight keys (parcTreeMapCreateKeyIterator keys) fst tree ↔ ks ≠ []) ∧
      (IteratesRight keys (parcTreeMapCreateValueIterator keys) snd tree ↔ ks ≠ []) ∧
      (IteratesRight keys (parcTreeMapCreateKeyValueIterator keys) id tree ↔ ks ≠ []) := by
  obtain ⟨tree, T, hr, hs⟩ := runCalls_simulates (A := A) hk calls (simulates_create A)
  have hri {α : Type} (e : K × V → α) : IteratesRight keys (treeMapIterator keys e) e tree ↔
        (entries tree T).map fst ≠ [] := by
    rw [iteratesRight_iff hk hs.inv, ne_eq, ne_eq, List.map_eq_nil_iff]
  exact ⟨tree, _, hr, hs.shows hk, hri _, hri _, hri _⟩

/-- Two entries, the first of which was replaced. -/
theorem treeMap_iterators_two : ∃ tree ks,
    runCalls intKeys bump (parcTreeMapCreateCustom bump)
        [.put 2 "b", .put 1 "a", .put 2 "B"] = pure (tree, [none, none, none]) ∧
      Shows intKeys tree (specCalls intKeys (fun _ => none)
        [.put 2 "b", .put 1 "a", .put 2 "B"]).1 ks ∧
      (IteratesRight intKeys (parcTreeMapCreateKeyIterator intKeys) fst tree ↔ ks ≠ []) ∧
      (IteratesRight intKeys (parcTreeMapCreateValueIterator intKeys) snd tree ↔ ks ≠ []) ∧
      (IteratesRight intKeys (parcTreeMapCreateKeyValueIterator intKeys) id tree ↔ ks ≠ []) :=
  treeMap_iterators_iff intKeys bump intKeys_lawful _

/-- No iterator can be created for a new map. -/
theorem new_treeMap_traps :
    (sweep (parcTreeMapCreateKeyIterator intKeys) (fun _ => false)
        (parcTreeMapCreateCustom bump : RbTree (Int × String)) =
      throw (.outOfBounds "Index must be within the range [0, 0)")) ∧
    (sweep (parcTreeMapCreateValueIterator intKeys) (fun _ => false)
        (parcTreeMapCreateCustom bump : RbTree (Int × String)) =
      throw (.outOfBounds "Index must be within the range [0, 0)")) ∧
    sweep (parcTreeMapCreateKeyValueIterator intKeys) (fun _ => false)
        (parcTreeMapCreateCustom bump : RbTree (Int × String)) =
      throw (.outOfBounds "Index must be within the range [0, 0)") := by
  have hi : iteratorInit (V := String) intKeys (parcTreeMapCreateCustom bump) =
      throw (.outOfBounds "Index must be within the range [0, 0)") :=
    iteratorInit_eq intKeys_lawful (treeInv_create bump)
  exact ⟨congrArg (· >>= _) hi, congrArg (· >>= _) hi, congrArg (· >>= _) hi⟩

end Libparc.TreeMap
