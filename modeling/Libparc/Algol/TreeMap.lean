import Libparc.Algol.RedBlackUpdate

/-! # parc_TreeMap

The public calls of the tree map, over the node code it shares with the
red-black tree. The abstract side is a function from keys to values: a `Put`
sets the value of every equal key, a removal unsets it. The tree map returns
what the abstract map returns, call by call (`runCalls_refines`), and its
listings are the abstract map's keys and values in order. -/
namespace Libparc.TreeMap
open Libparc.RedBlack Libparc.RedBlackNodes List

variable {K V : Type}

/-- How a tree map compares keys: with the function given to
`parcTreeMap_CreateCustom`, or with the keys' own `parcObject_Equals` and
`parcObject_Compare`. -/
structure KeyFunctions (K : Type) where
  customCompare : Option (K → K → Int)
  objectEquals : K → K → Bool
  objectCompare : K → K → Int

namespace KeyFunctions

def equals (keys : KeyFunctions K) (a b : K) : Bool :=
  match keys.customCompare with
  | some compare => compare a b == 0
  | none => keys.objectEquals a b

def compare (keys : KeyFunctions K) (a b : K) : Int :=
  match keys.customCompare with
  | some compare => compare a b
  | none => keys.objectCompare a b

def ops (keys : KeyFunctions K) : KeyOps (K × V) K where
  key := Prod.fst
  equals := keys.equals
  compare := keys.compare
  nullTexts := ["We have a null element!!", "We have a null key!!", "We have a null value!!"]

/-- The comparison in use is a total order, and equality is consistent with
it. -/
structure Lawful (keys : KeyFunctions K) : Prop where
  total : TotalCompare keys.compare
  equals_iff : ∀ a b, keys.equals a b = true ↔ keys.compare a b = 0

theorem Lawful.ops {keys : KeyFunctions K} (h : keys.Lawful) : (keys.ops (V := V)).Lawful :=
  ⟨h.total, h.equals_iff⟩

end KeyFunctions

variable (keys : KeyFunctions K)

def parcTreeMapCreateCustom (A : Allocator) : RbTree (K × V) := RbTree.create A

def parcTreeMapPut (A : Allocator) (tree : RbTree (K × V)) (key : Option K) (value : Option V) :
    Prog (RbTree (K × V)) := do
  let key ← assertNotNull key "Key can't be NULL"
  let value ← assertNotNull value "Value can't be NULL"
  tree.insert A keys.ops (key, value)

section
variable (tree : RbTree (K × V))

def parcTreeMapGet (key : K) : Prog (Option V) := do
  pure ((← tree.getKey keys.ops key).map Prod.snd)

def parcTreeMapRemove (key : Option K) : Prog (RbTree (K × V) × Option V) := do
  let key ← assertNotNull key "Key can't be NULL"
  RbTree.rbNodeAssertTreeInvariants keys.ops tree
  let (tree, e) ← tree.removeKey keys.ops key
  pure (tree, e.map Prod.snd)

def parcTreeMapRemoveAndRelease (key : Option K) : Prog (RbTree (K × V)) := do
  let key ← assertNotNull key "Key can't be NULL"
  let (tree, _) ← tree.removeKey keys.ops key
  pure tree

def parcTreeMapGetFirstEntry : Prog (Option (K × V)) :=
  tree.extreme keys.ops .left

def parcTreeMapGetLastEntry : Prog (Option (K × V)) :=
  tree.extreme keys.ops .right

def parcTreeMapGetFirstKey : Prog (Option K) := do
  pure ((← parcTreeMapGetFirstEntry keys tree).map Prod.fst)

def parcTreeMapGetLastKey : Prog (Option K) := do
  pure ((← parcTreeMapGetLastEntry keys tree).map Prod.fst)

def parcTreeMapSize : Prog Int := tree.sizeOf keys.ops

def parcTreeMapAcquireKeys : Prog (List K) :=
  tree.collect keys.ops Prod.fst

def parcTreeMapAcquireValues : Prog (List V) :=
  tree.collect keys.ops Prod.snd

/-- `_parcTreeMap_Elements`. -/
def parcTreeMapElements : Prog (List (K × V)) := tree.collect keys.ops id

end

/-! ## Runs, and the map they refine -/

inductive Call (K V : Type) where
  | put (key : K) (value : V)
  | remove (key : K)
  | removeAndRelease (key : K)
  | get (key : K)

/-- A call on the tree map, with the value it returns: `none` is NULL, or
nothing for the calls that return nothing. -/
def Call.run (A : Allocator) (tree : RbTree (K × V)) :
    Call K V → Prog (RbTree (K × V) × Option V)
  | .put key value => do
    pure (← parcTreeMapPut keys A tree (some key) (some value), none)
  | .remove key => parcTreeMapRemove keys tree (some key)
  | .removeAndRelease key => do
    pure (← parcTreeMapRemoveAndRelease keys tree (some key), none)
  | .get key => do
    pure (tree, ← parcTreeMapGet keys tree key)

def runCalls (A : Allocator) : RbTree (K × V) → List (Call K V) →
    Prog (RbTree (K × V) × List (Option V))
  | tree, [] => pure (tree, [])
  | tree, call :: calls => do
    let (tree, result) ← call.run keys A tree
    let (tree, results) ← runCalls A tree calls
    pure (tree, result :: results)

/-- What a call does to a map, and returns. -/
def Call.spec (M : K → Option V) : Call K V → (K → Option V) × Option V
  | .put key value => (fun k => if keys.equals key k then some value else M k, none)
  | .remove key => (fun k => if keys.equals key k then none else M k, M key)
  | .removeAndRelease key => (fun k => if keys.equals key k then none else M k, none)
  | .get key => (M, M key)

def specCalls : (K → Option V) → List (Call K V) → (K → Option V) × List (Option V)
  | M, [] => (M, [])
  | M, call :: calls =>
    let (M, result) := call.spec keys M
    let (M, results) := specCalls M calls
    (M, result :: results)

/-- Everything that can be read from the tree map agrees with the map `M`:
`ks` are its keys, each once, in strictly ascending order. -/
structure Shows (tree : RbTree (K × V)) (M : K → Option V) (ks : List K) : Prop where
  ascending : ks.Pairwise fun a b => keys.compare a b < 0
  complete : ∀ k, (M k).isSome ↔ ∃ k' ∈ ks, keys.equals k' k = true
  get : ∀ k, parcTreeMapGet keys tree k = pure (M k)
  size : parcTreeMapSize keys tree = pure (ks.length : Int)
  acquireKeys : parcTreeMapAcquireKeys keys tree = pure ks
  acquireValues : ∃ vs, parcTreeMapAcquireValues keys tree = pure vs ∧ vs.map some = ks.map M
  firstKey : parcTreeMapGetFirstKey keys tree = pure ks.head?
  lastKey : parcTreeMapGetLastKey keys tree = pure ks.getLast?

section
variable {keys} {A : Allocator} {tree : RbTree (K × V)} {T : ColorTree Ptr} {M : K → Option V}

/-- The entries of the tree map are those of the map `M`. -/
structure Simulates (keys : KeyFunctions K) (tree : RbTree (K × V)) (T : ColorTree Ptr)
    (M : K → Option V) : Prop where
  inv : TreeInv keys.ops tree T
  find : ∀ k, (Ascending.find Prod.fst keys.compare k (entries tree T)).map Prod.snd = M k

theorem simulates_create (A : Allocator) :
    Simulates keys (parcTreeMapCreateCustom A : RbTree (K × V)) .nil fun _ => none :=
  ⟨treeInv_create A, fun _ => rfl⟩

theorem KeyFunctions.Lawful.ite_equals (hk : keys.Lawful) {α : Type} (a b : K) (x y : α) :
    (if keys.equals a b then x else y) = if keys.compare a b = 0 then x else y := by
  simp only [hk.equals_iff]

theorem removeKey_simulates (hk : keys.Lawful) (h : Simulates keys tree T M) (key : K) :
    ∃ tree' T' e, tree.removeKey keys.ops key = pure (tree', e) ∧ e.map Prod.snd = M key ∧
      Simulates keys tree' T' (fun k => if keys.equals key k then none else M k) ∧
      Apart tree tree' T T' := by
  obtain ⟨tree', T', hr, hi, he, ha⟩ := removeKey_spec hk.ops h.inv key
  refine ⟨tree', T', _, hr, h.find key, ⟨hi, fun k => ?_⟩, ha⟩
  rw [he, hk.ite_equals, ← h.find k]
  exact congrFun (lookup_remove hk.total key _) k

theorem Call.run_simulates (hk : keys.Lawful) (h : Simulates keys tree T M) (call : Call K V) :
    ∃ tree' T', call.run keys A tree = pure (tree', (call.spec keys M).2) ∧
      Simulates keys tree' T' (call.spec keys M).1 ∧ Apart tree tree' T T' := by
  cases call with
  | put key w =>
    obtain ⟨tree', T', hr, hi, hen, ha⟩ := insert_spec A hk.ops h.inv (key, w)
    refine ⟨tree', T', ?_, ⟨hi, fun k => ?_⟩, ha⟩
    · simp only [Call.run, parcTreeMapPut, assertNotNull_some, pure_bind, hr, Call.spec]
    · show _ = if keys.equals key k then some w else M k
      rw [hen, hk.ite_equals, ← h.find k]
      exact congrFun (lookup_insert hk.total (key, w) _) k
  | remove key =>
    obtain ⟨tree', T', e, hr, he, hs, ha⟩ := removeKey_simulates hk h key
    refine ⟨tree', T', ?_, hs, ha⟩
    simp only [Call.run, parcTreeMapRemove, assertNotNull_some, pure_bind, h.inv.pass hk.ops, hr,
      he, Call.spec]
  | removeAndRelease key =>
    obtain ⟨tree', T', e, hr, he, hs, ha⟩ := removeKey_simulates hk h key
    refine ⟨tree', T', ?_, hs, ha⟩
    simp only [Call.run, parcTreeMapRemoveAndRelease, assertNotNull_some, pure_bind, hr, Call.spec]
  | get key =>
    refine ⟨tree, T, ?_, h, .refl tree T⟩
    simp only [Call.run, parcTreeMapGet, getKey_spec hk.ops h.inv key, pure_bind, Call.spec]
    exact congrArg (fun v => pure (tree, v)) (h.find key)

theorem runCalls_simulates (hk : keys.Lawful) : ∀ (cs : List (Call K V))
    {tree T M}, Simulates keys tree T M →
    ∃ tree' T', runCalls keys A tree cs = pure (tree', (specCalls keys M cs).2) ∧
      Simulates keys tree' T' (specCalls keys M cs).1
  | [], tree, T, _, h => ⟨tree, T, rfl, h⟩
  | call :: cs, _, _, _, h => by
    obtain ⟨tree1, T₁, hc, h1, _⟩ := call.run_simulates (A := A) hk h
    obtain ⟨tree', T', hca, h'⟩ := runCalls_simulates hk cs h1
    refine ⟨tree', T', ?_, h'⟩
    rw [runCalls, hc, pure_bind]
    simp only [hca, pure_bind, specCalls]

theorem Simulates.shows (hk : keys.Lawful) (h : Simulates keys tree T M) :
    Shows keys tree M ((entries tree T).map Prod.fst) := by
  have hops := hk.ops (V := V)
  have hs : Ascending.Sorted Prod.fst keys.compare (entries tree T) := h.inv.sorted
  refine ⟨pairwise_map.mpr hs, fun k => ?_, fun k => ?_, ?_, collect_spec hops h.inv _,
    ⟨_, collect_spec hops h.inv _, ?_⟩, ?_, ?_⟩
  · rw [← h.find k, Option.isSome_map, Ascending.find_isSome]
    simp [hk.equals_iff]
  · simp only [parcTreeMapGet, getKey_spec hops h.inv k, pure_bind]
    exact congrArg pure (h.find k)
  · rw [length_map]
    exact sizeOf_spec hops h.inv
  · rw [map_map, map_map]
    refine map_congr_left fun e he => ?_
    rw [Function.comp_apply, Function.comp_apply, ← h.find e.1, Ascending.find_self hk.total hs he]
    rfl
  · simp only [parcTreeMapGetFirstKey, parcTreeMapGetFirstEntry, extreme_spec hops h.inv .left,
      pure_bind, head?_map]
  · simp only [parcTreeMapGetLastKey, parcTreeMapGetLastEntry, extreme_spec hops h.inv .right,
      pure_bind, getLast?_map]

end

/-- **A tree map is a finite map**: every run of calls from a new tree map
returns what the map returns, and what can be read from it after the run is
the map. -/
theorem runCalls_refines (A : Allocator) (hk : keys.Lawful) (calls : List (Call K V)) :
    ∃ tree ks, runCalls keys A (parcTreeMapCreateCustom A) calls =
        pure (tree, (specCalls keys (fun _ => none) calls).2) ∧
      Shows keys tree (specCalls keys (fun _ => none) calls).1 ks := by
  obtain ⟨tree, T, hr, hs⟩ := runCalls_simulates (A := A) hk calls (simulates_create A)
  exact ⟨tree, _, hr, hs.shows hk⟩

/-- Integer keys under their own order. -/
def intKeys : KeyFunctions Int := ⟨none, fun a b => a == b, fun a b => a - b⟩

theorem intKeys_lawful : intKeys.Lawful := ⟨totalCompare_sub, fun a b => by
    simp only [intKeys, KeyFunctions.equals, KeyFunctions.compare, beq_iff_eq]
    omega⟩

theorem runCalls_refines_six : ∃ tree ks,
    runCalls intKeys Allocator.bump (parcTreeMapCreateCustom Allocator.bump)
        [.put 2 "b", .put 1 "a", .put 2 "B", .remove 2, .get 2, .get 1] =
      pure (tree, [none, none, none, some "B", none, some "a"]) ∧
      Shows intKeys tree (specCalls intKeys (fun _ => none)
        [.put 2 "b", .put 1 "a", .put 2 "B", .remove 2, .get 2, .get 1]).1 ks :=
  runCalls_refines intKeys Allocator.bump intKeys_lawful _

end Libparc.TreeMap
