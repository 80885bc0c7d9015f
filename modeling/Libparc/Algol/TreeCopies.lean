import Libparc.Algol.RedBlackCopies
import Libparc.Algol.TreeRedBlack
import Libparc.Algol.TreeMap

/-! # Equality and copies of parc_TreeRedBlack and parc_TreeMap

`parcTreeRedBlack_Equals`, `parcTreeMap_Equals` and the two `_Copy` functions, for trees
that were built by any calls in one memory. A copy function makes a copy that its tree may
free, and keys or values that are not copied must not be freed by two trees. The references
of the tree map are left out. -/
namespace Libparc
open Libparc.RedBlackNodes List Prod

/-- What can be asked of a tree. -/
inductive TreeQuery (K : Type) where
  | get (key : K)
  | size
  | keys
  | values
  | firstKey
  | lastKey

/-- What a query returns. -/
def TreeQuery.Result {K : Type} (V : Type) : TreeQuery K → Type
  | .get _ => Option V
  | .size => Int
  | .keys => List K
  | .values => List V
  | .firstKey => Option K
  | .lastKey => Option K

/-- What it returns for a tree with these entries. -/
def TreeQuery.answer {K V : Type} (cmp : K → K → Int) (L : List (K × V)) :
    (q : TreeQuery K) → q.Result V
  | .get key => lookup cmp L key
  | .size => (L.length : Int)
  | .keys => L.map fst
  | .values => L.map snd
  | .firstKey => L.head?.map fst
  | .lastKey => L.getLast?.map fst

/-! ## The red-black tree -/

namespace TreeRedBlack

variable {K V : Type}

/-- The functions given to `parcTreeRedBlack_Create`; `none` is NULL. -/
structure Functions (K V : Type) where
  keyCompare : K → K → Int
  keyFree : Option (K → Prog Unit)
  keyCopy : Option (K → K)
  valueFree : Option (V → Prog Unit)
  valueEquals : Option (V → V → Bool)
  valueCopy : Option (V → V)

namespace Functions

variable [DecidableEq V] (F : Functions K V)

/-- Values are compared as pointers where no function is given. -/
def sameValue (value1 value2 : V) : Bool :=
  match F.valueEquals with
  | some valueEquals => valueEquals value1 value2
  | none => decide (value1 = value2)

def copyKey (key : K) : K :=
  match F.keyCopy with
  | some keyCopy => keyCopy key
  | none => key

def copyValue (value : V) : V :=
  match F.valueCopy with
  | some valueCopy => valueCopy value
  | none => value

def functions : TreeFunctions K V where
  equals a b := F.keyCompare a b == 0
  compare := F.keyCompare
  sameKey a b := F.keyCompare a b == 0
  sameValue := F.sameValue
  copyKey := F.copyKey
  copyValue := F.copyValue
  nullTexts := ["We have a null key!!", "We have a null value!!"]

def code (A : Allocator) : TreeCode K V (Call K V) where
  toTreeFunctions := F.functions
  insert tree key value := parcTreeRedBlackInsert A F.keyCompare tree (some key) (some value)
  call c tree := c.run A F.keyCompare tree

/-- A free function comes with its copy function. The keys are totally ordered, equality of
values is an equivalence, and copies are equal to their originals. -/
structure Lawful : Prop where
  keyFree : F.keyFree.isSome = true → F.keyCopy.isSome = true
  valueFree : F.valueFree.isSome = true → F.valueCopy.isSome = true
  total : TotalCompare F.keyCompare
  sameValue : Equivalence fun v w => F.sameValue v w = true
  copyKey : ∀ k, F.keyCompare (F.copyKey k) k = 0
  copyValue : ∀ v, F.sameValue (F.copyValue v) v = true

end Functions

section
variable [DecidableEq V] (F : Functions K V)

def parcTreeRedBlackEquals (tree1 tree2 : RbTree (K × V)) : Prog Int := do
  pure (if ← F.functions.treeEquals tree1 tree2 then 1 else 0)

def parcTreeRedBlackCopy (A : Allocator) (f : Forest (K × V)) (source_tree : Nat) :
    Prog (Forest (K × V)) := (F.code A).copyTree A f source_tree

end

variable {cmp : K → K → Int}

def query (keyCompare : K → K → Int) (q : TreeQuery K) (tree : RbTree (K × V)) :
    Prog (q.Result V) :=
  match q with
  | .get key => parcTreeRedBlackGet keyCompare tree key
  | .size => parcTreeRedBlackSize keyCompare tree
  | .keys => parcTreeRedBlackKeys keyCompare tree
  | .values => parcTreeRedBlackValues keyCompare tree
  | .firstKey => parcTreeRedBlackFirstKey keyCompare tree
  | .lastKey => parcTreeRedBlackLastKey keyCompare tree

theorem query_eq (hc : TotalCompare cmp) (q : TreeQuery K) {tree : RbTree (K × V)} {P}
    (h : TreeInv (keyOps cmp) tree P) :
    query cmp q tree = pure (q.answer cmp (entries tree P)) := by
  have hops := keyOps_lawful (V := V) hc
  cases q with
  | get key =>
    simp only [query, parcTreeRedBlackGet, getKey_spec hops h, pure_bind]
    rfl
  | size => exact sizeOf_spec hops h
  | keys => exact collect_spec hops h _
  | values => exact collect_spec hops h _
  | firstKey =>
    simp only [query, parcTreeRedBlackFirstKey, extreme_spec hops h, pure_bind]
    rfl
  | lastKey =>
    simp only [query, parcTreeRedBlackLastKey, extreme_spec hops h, pure_bind]
    rfl

theorem Functions.Lawful.code [DecidableEq V] {F : Functions K V} (hF : F.Lawful) (A : Allocator) :
    (F.code A).Lawful A fun c M => c.spec F.keyCompare M where
  ops := keyOps_lawful hF.total
  sameKey a b := by simp [Functions.code, Functions.functions]
  sameValue := hF.sameValue
  copyKey := hF.copyKey
  copyValue := hF.copyValue
  insert tree k v := by
    rfl
  call c tree P h := c.run_spec hF.total h

end TreeRedBlack

/-! ## The tree map -/

namespace TreeMap

variable {K V : Type}

/-- The functions of the objects in a tree map, and the comparison it was given. -/
structure Functions (K V : Type) where
  keys : KeyFunctions K
  keyCopy : K → K
  valueEquals : V → V → Bool
  valueCopy : V → V

namespace Functions

variable (F : Functions K V)

/-- `parcTreeMap_Equals` compares keys with `parcObject_Equals`, also where the tree map has a
comparison of its own. -/
def functions : TreeFunctions K V where
  equals := F.keys.equals
  compare := F.keys.compare
  sameKey := F.keys.objectEquals
  sameValue := F.valueEquals
  copyKey := F.keyCopy
  copyValue := F.valueCopy
  nullTexts := ["We have a null element!!", "We have a null key!!", "We have a null value!!"]

def code (A : Allocator) : TreeCode K V (Call K V) where
  toTreeFunctions := F.functions
  insert tree key value := parcTreeMapPut F.keys A tree (some key) (some value)
  call c tree := Prod.fst <$> c.run F.keys A tree

/-- The comparison in use is a total order and agrees with `parcObject_Equals`, equality of
values is an equivalence, and copies are equal to their originals. -/
structure Lawful : Prop where
  keys : F.keys.Lawful
  objectEquals : ∀ a b, F.keys.objectEquals a b = true ↔ F.keys.compare a b = 0
  valueEquals : Equivalence fun v w => F.valueEquals v w = true
  keyCopy : ∀ k, F.keys.compare (F.keyCopy k) k = 0
  valueCopy : ∀ v, F.valueEquals (F.valueCopy v) v = true

end Functions

def parcTreeMapEquals (F : Functions K V) (tree1 tree2 : RbTree (K × V)) : Prog Bool :=
  F.functions.treeEquals tree1 tree2

def parcTreeMapCopy (F : Functions K V) (A : Allocator) (f : Forest (K × V)) (sourceTree : Nat) :
    Prog (Forest (K × V)) := (F.code A).copyTree A f sourceTree

variable {keys : KeyFunctions K}

def query (keys : KeyFunctions K) (q : TreeQuery K) (tree : RbTree (K × V)) : Prog (q.Result V) :=
  match q with
  | .get key => parcTreeMapGet keys tree key
  | .size => parcTreeMapSize keys tree
  | .keys => parcTreeMapAcquireKeys keys tree
  | .values => parcTreeMapAcquireValues keys tree
  | .firstKey => parcTreeMapGetFirstKey keys tree
  | .lastKey => parcTreeMapGetLastKey keys tree

theorem query_eq (hk : keys.Lawful) (q : TreeQuery K) {tree : RbTree (K × V)} {P}
    (h : TreeInv keys.ops tree P) :
    query keys q tree = pure (q.answer keys.compare (entries tree P)) := by
  have hops := hk.ops (V := V)
  cases q with
  | get key =>
    simp only [query, parcTreeMapGet, getKey_spec hops h, pure_bind]
    rfl
  | size => exact sizeOf_spec hops h
  | keys => exact collect_spec hops h _
  | values => exact collect_spec hops h _
  | firstKey =>
    simp only [query, parcTreeMapGetFirstKey, parcTreeMapGetFirstEntry, extreme_spec hops h,
      pure_bind]
    rfl
  | lastKey =>
    simp only [query, parcTreeMapGetLastKey, parcTreeMapGetLastEntry, extreme_spec hops h,
      pure_bind]
    rfl

theorem Functions.Lawful.code {F : Functions K V} (hF : F.Lawful) (A : Allocator) :
    (F.code A).Lawful A fun c M => (c.spec F.keys M).1 where
  ops := hF.keys.ops
  sameKey := hF.objectEquals
  sameValue := hF.valueEquals
  copyKey := hF.keyCopy
  copyValue := hF.valueCopy
  insert tree k v := by
    rfl
  call c tree P h := by
    obtain ⟨tree', P', hr, hs, ha⟩ := c.run_simulates (A := A) hF.keys ⟨h, fun _ => rfl⟩
    refine ⟨tree', P', ?_, hs.inv, ha, funext hs.find⟩
    simp only [Functions.code, hr, map_pure]

end TreeMap

/-! ## Both -/

/-- **`_Equals` says whether two trees hold the same keys with equal values**, whatever the
calls that made them, and **`_Copy` makes an equal tree that later calls on the other trees
do not change.** -/
theorem treeEquals_copy_right {K V K' V' : Type} [DecidableEq V] (A : Allocator)
    {F : TreeRedBlack.Functions K V} (hF : F.Lawful) {G : TreeMap.Functions K' V'} (hG : G.Lawful) :
    (EqualsRight (F.code A) A (fun c M => c.spec F.keyCompare M)
        (TreeRedBlack.parcTreeRedBlackEquals F) (· ≠ 0) ∧
      CopyRight (F.code A) A (TreeRedBlack.parcTreeRedBlackCopy F A)
        (TreeRedBlack.parcTreeRedBlackEquals F) (· ≠ 0) (TreeRedBlack.query F.keyCompare)) ∧
    EqualsRight (G.code A) A (fun c M => (c.spec G.keys M).1) (TreeMap.parcTreeMapEquals G)
        (· = true) ∧
      CopyRight (G.code A) A (TreeMap.parcTreeMapCopy G A) (TreeMap.parcTreeMapEquals G)
        (· = true) (TreeMap.query G.keys) := by
  have hi : ∀ b : Bool, (if b = true then (1 : Int) else 0) ≠ 0 ↔ b = true := by
    intro b
    cases b <;> simp
  have hid : ∀ tree1 tree2, TreeMap.parcTreeMapEquals G tree1 tree2 =
      id <$> (G.code A).treeEquals tree1 tree2 := fun _ _ => (id_map _).symm
  refine ⟨⟨?_, ?_⟩, ?_, ?_⟩
  · exact equalsRight (hF.code A) (fun _ _ => rfl) hi
  · exact copyRight (hF.code A) (fun _ _ => rfl) hi fun q =>
      ⟨(q.answer _ ·), fun _ _ => TreeRedBlack.query_eq hF.total q⟩
  · exact equalsRight (hG.code A) hid fun _ => Iff.rfl
  · exact copyRight (hG.code A) hid (fun _ => Iff.rfl) fun q =>
      ⟨(q.answer _ ·), fun _ _ => TreeMap.query_eq hG.keys q⟩

/-- Integers with names, compared directly. -/
def intFunctions : TreeRedBlack.Functions Int String where
  keyCompare a b := a - b
  keyFree := none
  keyCopy := none
  valueFree := none
  valueEquals := none
  valueCopy := none

theorem intFunctions_lawful : intFunctions.Lawful where
  keyFree := nofun
  valueFree := nofun
  total := totalCompare_sub
  sameValue := by
    simpa [intFunctions, TreeRedBlack.Functions.sameValue] using eq_equivalence
  copyKey k := Int.sub_self k
  copyValue v := by simp [intFunctions, TreeRedBlack.Functions.sameValue,
    TreeRedBlack.Functions.copyValue]

def intObjects : TreeMap.Functions Int String := ⟨TreeMap.intKeys, id, (· == ·), id⟩

theorem intObjects_lawful : intObjects.Lawful where
  keys := TreeMap.intKeys_lawful
  objectEquals := TreeMap.intKeys_lawful.equals_iff
  valueEquals := by simpa [intObjects] using eq_equivalence
  keyCopy k := Int.sub_self k
  valueCopy v := beq_self_eq_true v

/-- Two trees built in opposite orders. -/
def twoTrees : List (Event (TreeRedBlack.Call Int String)) :=
  [.create, .call 0 (.insert 1 "a"), .call 0 (.insert 2 "b"),
    .create, .call 1 (.insert 2 "b"), .call 1 (.insert 1 "a")]

def emptyMemory : Memory (Int × String) :=
  ⟨fun _ => NULL, fun _ => NULL, fun _ => NULL, fun _ => .black, fun _ => none, []⟩

theorem treeEquals_copy_right_twoTrees : ∃ f b,
    runEvents (intFunctions.code .bump) .bump (.start emptyMemory) twoTrees = pure f ∧
      f.compare 0 1 (TreeRedBlack.parcTreeRedBlackEquals intFunctions) = pure b ∧ b ≠ 0 := by
  obtain ⟨⟨he, _⟩, _⟩ := treeEquals_copy_right Allocator.bump intFunctions_lawful intObjects_lawful
  obtain ⟨f, hr, _, hc⟩ := he emptyMemory twoTrees
    (by simp [twoTrees, ValidEvents, Event.Valid, Event.count])
  obtain ⟨b, hb, hi⟩ := hc 0 1 _ _ rfl rfl
  refine ⟨f, b, hr, hb, hi.mpr fun k => ?_⟩
  dsimp only [TreeRedBlack.Call.spec, intFunctions]
  by_cases h1 : 1 - k = 0
  · have h2 : 2 - k ≠ 0 := by omega
    rw [if_pos h1, if_neg h2, if_pos h1]
    exact .some rfl
  · split
    · exact .some rfl
    · exact .none

end Libparc
