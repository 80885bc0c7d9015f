import Libparc.Algol.ArrayList
import Libparc.Algol.RedBlackForest

/-! # Equality and copies of trees

`Equals` and `Copy`, which parc_TreeRedBlack.c and parc_TreeMap.c write in the same way over
different functions of keys and values. `Equals` compares the lists of keys and values, and
these depend on the map a tree holds, not on how the tree was built
(`TreeFunctions.forall₂_iff_lookup`). `Copy` inserts copies into a new tree.

Programs are lists of events in one memory. A run returns, the trees hold the maps that
the events make, and each tree is changed by the calls on it and by no others
(`runEvents_spec`). -/
namespace Libparc.RedBlackNodes
open Libparc.RedBlack Exec Forest List Prod ArrayList

variable {E K V C : Type}

/-! ## Comparing and copying -/

/-- The loop of `_Equals` over the keys, and over the values: it is left at the first two that
differ. -/
def eachSame {α : Type} (same : α → α → Bool) (list1 list2 : List α) : Prog Bool :=
  Exec.loop (fun i => do
    if i < list1.length then
      let a ← parcArrayListGet (.ofList list1) i
      let b ← parcArrayListGet (.ofList list2) i
      if same a b then pure (.inl (i + 1)) else pure (.inr false)
    else pure (.inr true)) 0

/-- What `_Equals` and `_Copy` of the two files have in common is over these functions: how
a tree compares its keys, how the keys and values of two trees are compared, and how keys
and values are copied. -/
structure TreeFunctions (K V : Type) where
  equals : K → K → Bool
  compare : K → K → Int
  sameKey : K → K → Bool
  sameValue : V → V → Bool
  copyKey : K → K
  copyValue : V → V
  nullTexts : List String

namespace TreeFunctions

section
variable (F : TreeFunctions K V)

def ops : KeyOps (K × V) K :=
  ⟨Prod.fst, F.equals, F.compare, F.nullTexts⟩

def keys (tree : RbTree (K × V)) : Prog (List K) :=
  tree.collect F.ops Prod.fst

def values (tree : RbTree (K × V)) : Prog (List V) :=
  tree.collect F.ops Prod.snd

/-- `parcTreeRedBlack_Equals` and `parcTreeMap_Equals`. -/
def treeEquals (tree1 tree2 : RbTree (K × V)) : Prog Bool := do
  tree1.rbNodeAssertTreeInvariants F.ops
  tree2.rbNodeAssertTreeInvariants F.ops
  let keys1 ← F.keys tree1
  let keys2 ← F.keys tree2
  if keys1.length = keys2.length then
    if ← eachSame F.sameKey keys1 keys2 then
      let values1 ← F.values tree1
      let values2 ← F.values tree2
      if values1.length = values2.length then eachSame F.sameValue values1 values2
      else pure true
    else pure false
  else pure false

/-- A key and a value as the copy of a tree holds them. -/
def copyEntry (e : K × V) : K × V := (F.copyKey e.1, F.copyValue e.2)

end

end TreeFunctions

/-- A tree's functions together with its public insertion and the calls that change it. -/
structure TreeCode (K V C : Type) extends TreeFunctions K V where
  insert : RbTree (K × V) → K → V → Prog (RbTree (K × V))
  call : C → RbTree (K × V) → Prog (RbTree (K × V))

namespace TreeCode

/-- The loop of `_Copy`: each key and value goes into the new tree as a copy. -/
def copyEntries (T : TreeCode K V C) (copy : Nat) (keys : List K) (values : List V)
    (f : Forest (K × V)) : Prog (Forest (K × V)) :=
  Exec.loop (fun (i, f) => do
    if i < keys.length then
      let keySource ← parcArrayListGet (.ofList keys) i
      let valueSource ← parcArrayListGet (.ofList values) i
      let f ← f.update copy fun tree => T.insert tree (T.copyKey keySource)
        (T.copyValue valueSource)
      pure (.inl (i + 1, f))
    else pure (.inr f)) (0, f)

/-- `parcTreeRedBlack_Copy` and `parcTreeMap_Copy`: the copy is the next tree of the forest. -/
def copyTree (T : TreeCode K V C) (A : Allocator) (f : Forest (K × V)) (source : Nat) :
    Prog (Forest (K × V)) := do
  let tree ← assertNotNull (f.tree source) "Tree is null!"
  tree.rbNodeAssertTreeInvariants T.ops
  let copy := f.trees.length
  let f := f.create A
  let keys ← f.read source T.keys
  let values ← f.read source T.values
  T.copyEntries copy keys values f

end TreeCode

/-- What a program does with its trees. -/
inductive Event (C : Type) where
  | create
  | call (tree : Nat) (c : C)
  | copy (source : Nat)

def Event.run (T : TreeCode K V C) (A : Allocator) (f : Forest (K × V)) :
    Event C → Prog (Forest (K × V))
  | .create => pure (f.create A)
  | .call tree c => f.update tree (T.call c)
  | .copy source => T.copyTree A f source

def runEvents (T : TreeCode K V C) (A : Allocator) (f : Forest (K × V)) (events : List (Event C)) :
    Prog (Forest (K × V)) := events.foldlM (Event.run T A) f

/-- The trees the event names exist, where there are `n` of them. -/
def Event.Valid (n : Nat) : Event C → Prop
  | .create => True
  | .call tree _ => tree < n
  | .copy source => source < n

/-- The number of trees after the event. -/
def Event.count (n : Nat) : Event C → Nat
  | .create => n + 1
  | .call _ _ => n
  | .copy _ => n + 1

def ValidEvents : Nat → List (Event C) → Prop
  | _, [] => True
  | n, e :: events => e.Valid n ∧ ValidEvents (e.count n) events

/-- The event is no call on the tree `i`. -/
def Event.Spares (i : Nat) : Event C → Prop
  | .call tree _ => tree ≠ i
  | _ => True

/-! ## What the trees hold -/

/-- What an event does to the maps that the trees hold, given what the calls do. -/
def Event.spec (copyValue : V → V) (spec : C → (K → Option V) → K → Option V)
    (Ms : List (K → Option V)) : Event C → List (K → Option V)
  | .create => Ms ++ [fun (_ : K) => (none : Option V)]
  | .call tree c => Ms.modify tree (spec c)
  | .copy source => Ms ++ (Ms[source]?.toList.map fun (M : K → Option V) k => (M k).map copyValue)

def specEvents (copyValue : V → V) (spec : C → (K → Option V) → K → Option V)
    (events : List (Event C)) : List (K → Option V) :=
  events.foldl (Event.spec copyValue spec) []

/-! ## Equality -/

theorem eachSame_spec {α : Type} (same : α → α → Bool) (l1 l2 : List α)
    (hl : l1.length = l2.length) :
    ∃ b, eachSame same l1 l2 = pure b ∧
      (b = true ↔ List.Forall₂ (fun x y => same x y = true) l1 l2) := by
  refine loop_variant (fun m i => i ≤ l1.length ∧ m = l1.length - i ∧
      ∀ j (h1 : j < l1.length) (h2 : j < l2.length), j < i → same l1[j] l2[j] = true)
    (fun b => b = true ↔ List.Forall₂ (fun x y => same x y = true) l1 l2) ?_
    ⟨Nat.zero_le _, rfl, fun j _ _ hj => absurd hj (Nat.not_lt_zero j)⟩
  intro m i ⟨hi, hm, hs⟩
  by_cases hlt : i < l1.length
  · have hlt2 : i < l2.length := hl ▸ hlt
    simp only [if_pos hlt, get_ofList hlt, get_ofList hlt2, pure_bind]
    cases hab : same l1[i] l2[i] with
    | true =>
      refine .inr ⟨i + 1, l1.length - (i + 1), rfl, ⟨hlt, rfl, fun j h1 h2 hj => ?_⟩, by omega⟩
      obtain hj | rfl := Nat.lt_succ_iff_lt_or_eq.mp hj
      · exact hs j h1 h2 hj
      · exact hab
    | false =>
      refine .inl ⟨false, rfl, nofun, fun ha => ?_⟩
      have := (forall₂_iff_get.mp ha).2 i hlt hlt2
      rw [get_eq_getElem, get_eq_getElem, hab] at this
      cases this
  · refine .inl ⟨true, by rw [if_neg hlt], fun _ => ?_, fun _ => rfl⟩
    refine forall₂_iff_get.mpr ⟨hl, fun j h1 h2 => ?_⟩
    exact hs j h1 h2 (Nat.lt_of_lt_of_le h1 (Nat.le_of_not_lt hlt))

theorem forall₂_and_iff {α β : Type} {R S} {l1 : List α} {l2 : List β} :
    List.Forall₂ (fun a b => R a b ∧ S a b) l1 l2 ↔
      List.Forall₂ R l1 l2 ∧ List.Forall₂ S l1 l2 := by
  simp only [forall₂_iff_get]
  constructor
  · intro ⟨hl, h⟩
    exact ⟨⟨hl, fun i h1 h2 => (h i h1 h2).1⟩, hl, fun i h1 h2 => (h i h1 h2).2⟩
  · intro ⟨⟨hl, hR⟩, _, hS⟩
    exact ⟨hl, fun i h1 h2 => ⟨hR i h1 h2, hS i h1 h2⟩⟩

theorem rel_map_snd {R} {x y : Option (K × V)} :
    Option.Rel R (x.map snd) (y.map snd) ↔ Option.Rel (fun a b => R a.2 b.2) x y := by
  constructor
  · intro h
    cases x <;> cases y <;> cases h
    · exact .none
    · exact .some ‹_›
  · intro h
    cases h with
    | some h => exact .some h
    | none => exact .none

section
variable {F : TreeFunctions K V} {tree1 tree2 : RbTree (K × V)} {P1 P2 : ColorTree Ptr}

variable (hops : F.ops.Lawful) (hk : ∀ a b, F.sameKey a b = true ↔ F.compare a b = 0)
  (h1 : TreeInv F.ops tree1 P1) (h2 : TreeInv F.ops tree2 P2)
include hops hk h1 h2

theorem TreeFunctions.forall₂_iff_lookup :
    (List.Forall₂ (fun a b => F.sameKey a b = true) ((entries tree1 P1).map fst)
        ((entries tree2 P2).map fst) ∧
      List.Forall₂ (fun v w => F.sameValue v w = true) ((entries tree1 P1).map snd)
        ((entries tree2 P2).map snd)) ↔
      ∀ k, Option.Rel (fun v w => F.sameValue v w = true) (lookup F.compare (entries tree1 P1) k)
        (lookup F.compare (entries tree2 P2) k) := by
  simp only [forall₂_map_left_iff, forall₂_map_right_iff, hk, lookup, rel_map_snd]
  rw [← forall₂_and_iff]
  exact Ascending.forall₂_iff_find hops.total h1.sorted h2.sorted

theorem TreeFunctions.treeEquals_spec :
    ∃ b, F.treeEquals tree1 tree2 = pure b ∧ (b = true ↔
      ∀ k, Option.Rel (fun v w => F.sameValue v w = true) (lookup F.compare (entries tree1 P1) k)
        (lookup F.compare (entries tree2 P2) k)) := by
  rw [← TreeFunctions.forall₂_iff_lookup hops hk h1 h2]
  unfold TreeFunctions.treeEquals TreeFunctions.keys TreeFunctions.values
  simp only [h1.pass hops, h2.pass hops, collect_spec hops h1, collect_spec hops h2, pure_bind]
  by_cases hl : (entries tree1 P1).length = (entries tree2 P2).length
  · obtain ⟨b, hb, hbi⟩ := eachSame_spec F.sameKey ((entries tree1 P1).map fst)
      ((entries tree2 P2).map fst) (by simp [hl])
    obtain ⟨c, hc, hci⟩ := eachSame_spec F.sameValue ((entries tree1 P1).map snd)
      ((entries tree2 P2).map snd) (by simp [hl])
    rw [← hbi, ← hci]
    simp only [length_map, if_pos hl, hb, hc, pure_bind]
    cases b with
    | true => exact ⟨c, rfl, by simp⟩
    | false => exact ⟨false, rfl, by simp⟩
  · refine ⟨false, by simp only [length_map, if_neg hl], nofun, fun h => ?_⟩
    have := h.1.length_eq
    rw [length_map, length_map] at this
    exact absurd this hl

end

/-! ## Runs -/

/-- The comparison in use is a total order that agrees with the equality of keys, copies are
equal to what they are copies of, and a call changes the map of its tree as `spec` says. -/
structure TreeCode.Lawful (T : TreeCode K V C) (A : Allocator)
    (spec : C → (K → Option V) → K → Option V) : Prop where
  ops : T.ops.Lawful
  sameKey : ∀ a b, T.sameKey a b = true ↔ T.compare a b = 0
  sameValue : Equivalence fun v w => T.sameValue v w = true
  copyKey : ∀ k, T.compare (T.copyKey k) k = 0
  copyValue : ∀ v, T.sameValue (T.copyValue v) v = true
  insert : ∀ tree k v, T.insert tree k v = tree.insert A T.ops (k, v)
  call : ∀ c tree P, TreeInv T.ops tree P → ∃ tree' P', T.call c tree = pure tree' ∧
    TreeInv T.ops tree' P' ∧ Apart tree tree' P P' ∧
    lookup T.compare (entries tree' P') = spec c (lookup T.compare (entries tree P))

variable {T : TreeCode K V C} {A : Allocator} {spec : C → (K → Option V) → K → Option V}
  {f : Forest (K × V)} {W : List (Plot (K × V))} {w : Plot (K × V)} {i : Nat}

/-- The map of each tree. -/
def maps (T : TreeCode K V C) (W : List (Plot (K × V))) : List (K → Option V) :=
  W.map fun w => lookup T.compare w.entries

theorem Forest.Inv.sorted (h : f.Inv T.ops W) (hw : W[i]? = some w) :
    Ascending.Sorted fst T.compare w.entries := by
  rw [← (h.plot hw).entries]
  exact (h.plot hw).inv.sorted

theorem Forest.Inv.update (call : RbTree (K × V) → Prog (RbTree (K × V)))
    {t' P'} (h : f.Inv T.ops W) (hw : W[i]? = some w)
    (hc : call (f.memory.view w.header) = pure t') (ht : TreeInv T.ops t' P')
    (ha : Apart (f.memory.view w.header) t' w.tree P') :
    ∃ f', f.update i call = pure f' ∧ f'.Inv T.ops (W.set i ⟨t'.header, P', entries t' P'⟩) := by
  refine ⟨f.store i t', ?_, h.store hw ht ha⟩
  simp only [Forest.update, h.tree hw, assertNotNull_some, pure_bind, hc]

section
variable (hT : T.Lawful A spec)
include hT

theorem Forest.Inv.insert (h : f.Inv T.ops W) (hw : W[i]? = some w) (k : K) (v : V) :
    ∃ f' w', f.update i (fun tree => T.insert tree k v) = pure f' ∧ f'.Inv T.ops (W.set i w') ∧
      w'.entries = Ascending.insert fst T.compare (k, v) w.entries := by
  obtain ⟨hi, he⟩ := h.plot hw
  obtain ⟨t', P', hr, ht, hen, ha⟩ := insert_spec A hT.ops hi (k, v)
  rw [← hT.insert] at hr
  obtain ⟨f', hf', hi'⟩ := h.update (fun tree => T.insert tree k v) hw hr ht ha
  exact ⟨f', _, hf', hi', hen.trans (by rw [he]; rfl)⟩

theorem TreeCode.Lawful.compare_copy (a b : K × V) :
    T.compare (T.copyEntry a).1 (T.copyEntry b).1 < 0 ↔ T.compare a.1 b.1 < 0 := by
  have ha := hT.ops.total.neg_congr_left (hT.copyKey a.1) (T.copyKey b.1)
  have hb := hT.ops.total.neg_congr_right (hT.copyKey b.1) a.1
  exact ha.trans hb

theorem insert_copy {L} (hs : Ascending.Sorted fst T.compare L) (hi : i < L.length) :
    Ascending.insert fst T.compare (T.copyEntry L[i]) ((L.take i).map T.copyEntry) =
      (L.take (i + 1)).map T.copyEntry := by
  have hl : ∀ a ∈ (L.take i).map T.copyEntry, T.compare a.1 (T.copyEntry L[i]).1 < 0 := by
    intro a ha
    obtain ⟨e, he, rfl⟩ := mem_map.mp ha
    obtain ⟨j, hj, rfl⟩ := mem_take_iff_getElem.mp he
    exact (hT.compare_copy _ _).mpr (pairwise_iff_getElem.mp hs j i _ hi (by omega))
  have hla : Ascending.insert fst T.compare (T.copyEntry L[i])
      ((L.take i).map T.copyEntry ++ []) = (L.take i).map T.copyEntry ++ [T.copyEntry L[i]] :=
    Ascending.insert_between hl fun a ha => absurd ha not_mem_nil
  rw [append_nil] at hla
  rw [hla, take_succ_eq_append_getElem hi, map_append]
  rfl

theorem TreeCode.copyEntries_spec (h : f.Inv T.ops W)
    (hw : W[i]? = some w) (he : w.entries = []) {L : List (K × V)}
    (hs : Ascending.Sorted fst T.compare L) :
    ∃ f', T.copyEntries i (L.map fst) (L.map snd) f = pure f' ∧
      ∃ w', f'.Inv T.ops (W.set i w') ∧ w'.entries = L.map T.copyEntry := by
  obtain ⟨hi, hse⟩ := List.getElem?_eq_some_iff.mp hw
  have hst : f.Inv T.ops (W.set i w) := by rwa [← hse, set_getElem_self]
  refine loop_variant (fun m (st : Nat × Forest (K × V)) => st.1 ≤ L.length ∧ m = L.length - st.1 ∧
      ∃ w' : Plot (K × V), st.2.Inv T.ops (W.set i w') ∧ w'.entries = (L.take st.1).map T.copyEntry)
    (fun f' : Forest (K × V) => ∃ w' : Plot (K × V), f'.Inv T.ops (W.set i w') ∧
      w'.entries = L.map T.copyEntry)
    ?_ (s := (0, f)) ⟨Nat.zero_le _, rfl, w, hst, he⟩
  · intro m ⟨j, g⟩ ⟨hj, hm, w', hin, hen⟩
    dsimp only at hj hm hin hen ⊢
    rw [length_map]
    by_cases hlt : j < L.length
    · obtain ⟨g', w'', hg', hi', he'⟩ := hin.insert hT (getElem?_set_self hi)
        (T.copyKey L[j].1) (T.copyValue L[j].2)
      rw [set_set] at hi'
      refine .inr ⟨(j + 1, g'), L.length - (j + 1), ?_, ⟨hlt, rfl, w'', hi', ?_⟩, by omega⟩
      · rw [if_pos hlt, get_ofList (by simpa using hlt),
          get_ofList (by simpa using hlt)]
        simp only [getElem_map, pure_bind, hg']
      · rw [he', hen]
        exact insert_copy hT hs hlt
    · refine .inl ⟨g, by rw [if_neg hlt], w', hin, ?_⟩
      rw [hen, take_of_length_le (Nat.le_of_not_lt hlt)]

/-- **A copy is a new tree** that holds copies of the entries. The other trees are as before. -/
theorem TreeCode.copyTree_spec (h : f.Inv T.ops W) (hw : W[i]? = some w) :
    ∃ f' w', T.copyTree A f i = pure f' ∧ f'.Inv T.ops (W ++ [w']) ∧
      w'.entries = w.entries.map T.copyEntry := by
  have hc := h.create A
  have hl : f.trees.length = W.length := by rw [h.trees, length_map]
  generalize hne : (⟨(RbTree.createIn A f.memory).header, .nil, []⟩ : Plot (K × V)) = new at hc
  have hi : i < W.length := (List.getElem?_eq_some_iff.mp hw).1
  have hw' : (W ++ [new])[i]? = some w := by rw [getElem?_append_left hi, hw]
  have hn : (W ++ [new])[W.length]? = some new := by simp
  obtain ⟨f', hf', w', hin, he⟩ := TreeCode.copyEntries_spec hT hc hn (hne ▸ rfl) (h.sorted hw)
  rw [set_append_right _ _ (Nat.le_refl _), Nat.sub_self] at hin
  refine ⟨f', w', ?_, hin, he⟩
  obtain ⟨hwi, hwe⟩ := hc.plot hw'
  unfold TreeCode.copyTree Forest.read TreeFunctions.keys TreeFunctions.values
  simp only [h.tree hw, hc.tree hw', assertNotNull_some, pure_bind,
    (h.plot hw).inv.pass hT.ops, collect_spec hT.ops hwi, hwe, hl, hf']

theorem lookup_copy (L : List (K × V)) :
    lookup T.compare (L.map T.copyEntry) = fun k => (lookup T.compare L k).map T.copyValue := by
  funext k
  have hk : ∀ e : K × V, (T.compare (T.copyEntry e).1 k == 0) = (T.compare e.1 k == 0) := by
    intro e
    rw [Bool.eq_iff_iff, beq_iff_eq, beq_iff_eq]
    exact hT.ops.total.zero_congr_left (hT.copyKey e.1) k
  unfold lookup Ascending.find
  rw [find?_map]
  simp only [Function.comp_def, hk, Option.map_map]
  rfl

end

theorem maps_append (W₁ W₂ : List (Plot (K × V))) : maps T (W₁ ++ W₂) = maps T W₁ ++ maps T W₂ :=
  map_append

theorem maps_getElem? (hw : W[i]? = some w) :
    (maps T W)[i]? = some (lookup T.compare w.entries) := by
  rw [maps, getElem?_map, hw]
  rfl

/-- The trees that an event does not call keep their entries. -/
def Kept (spares : Nat → Prop) (W W' : List (Plot (K × V))) : Prop :=
  ∀ j w, W[j]? = some w → spares j → ∃ w', W'[j]? = some w' ∧ w'.entries = w.entries

theorem kept_append (spares : Nat → Prop) (W W' : List (Plot (K × V))) :
    Kept spares W (W ++ W') := by
  intro j w hw _
  exact ⟨w, by rw [List.getElem?_append_left (List.getElem?_eq_some_iff.mp hw).1, hw], rfl⟩

/-- **One event** returns, changes the maps as it should, and no tree that it does not call. -/
theorem Event.run_spec (hT : T.Lawful A spec) (h : f.Inv T.ops W) (e : Event C)
    (hv : e.Valid W.length) :
    ∃ f' W', e.run T A f = pure f' ∧ f'.Inv T.ops W' ∧ W'.length = e.count W.length ∧
      maps T W' = e.spec T.copyValue spec (maps T W) ∧ Kept e.Spares W W' := by
  cases e with
  | create =>
    exact ⟨_, _, rfl, h.create A, length_append, maps_append _ _, kept_append _ _ _⟩
  | call i c =>
    obtain ⟨w, hw⟩ : ∃ w, W[i]? = some w := ⟨_, getElem?_eq_getElem hv⟩
    obtain ⟨hi, he⟩ := h.plot hw
    obtain ⟨t', P', hr, ht, ha, hl⟩ := hT.call c _ _ hi
    obtain ⟨f', hf', hi'⟩ := h.update (T.call c) hw hr ht ha
    refine ⟨f', _, hf', hi', length_set, ?_, fun j w' hw' hj => ⟨w', ?_, rfl⟩⟩
    · rw [Event.spec, modify_eq_set_getElem?, maps_getElem? hw, maps, map_set, hl, he]
      rfl
    · rwa [getElem?_set_ne hj]
  | copy i =>
    obtain ⟨w, hw⟩ : ∃ w, W[i]? = some w := ⟨_, getElem?_eq_getElem hv⟩
    obtain ⟨f', w', hf', hi, hen⟩ := TreeCode.copyTree_spec hT h hw
    refine ⟨f', _, hf', hi, length_append, ?_, kept_append _ _ _⟩
    have hm := lookup_copy hT w.entries
    rw [← hen] at hm
    rw [maps_append, Event.spec, maps_getElem? hw]
    exact congrArg (fun M => maps T W ++ [M]) hm

theorem Kept.trans {spares} {W W' W'' : List (Plot (K × V))} (h : Kept spares W W')
    (h' : Kept spares W' W'') : Kept spares W W'' := by
  intro j w hw hj
  obtain ⟨w', hw', he⟩ := h j w hw hj
  obtain ⟨w'', hw'', he'⟩ := h' j w' hw' hj
  exact ⟨w'', hw'', he'.trans he⟩

theorem Kept.imp {p q} {W W' : List (Plot (K × V))} (h : Kept p W W')
    (hpq : ∀ j, q j → p j) : Kept q W W' :=
  fun j w hw hj => h j w hw (hpq j hj)

/-- **Every valid run returns**, the trees hold the maps that the events make, and the trees
that no event calls keep their entries. -/
theorem runEvents_spec (hT : T.Lawful A spec) (evs : List (Event C)) :
    ∀ {f} {W : List (Plot (K × V))}, f.Inv T.ops W →
      ValidEvents W.length evs → ∃ f' W', runEvents T A f evs = pure f' ∧ f'.Inv T.ops W' ∧
        maps T W' = evs.foldl (Event.spec T.copyValue spec) (maps T W) ∧
        Kept (fun j => ∀ e ∈ evs, e.Spares j) W W' := by
  induction evs with
  | nil => exact fun h _ => ⟨_, _, rfl, h, rfl, fun j w hw _ => ⟨w, hw, rfl⟩⟩
  | cons e evs ih =>
    intro f W h hv
    obtain ⟨f1, W₁, hr, h1, hl, hm, hk⟩ := e.run_spec hT h hv.1
    obtain ⟨f', W', hru, h', hm', hk'⟩ := ih h1 (hl ▸ hv.2)
    refine ⟨f', W', ?_, h', ?_, ?_⟩
    · rw [runEvents, foldlM_cons, hr, pure_bind]
      exact hru
    · rw [hm', hm, foldl_cons]
    · exact (hk.imp fun j hj => hj e (.head _)).trans
        (hk'.imp fun j hj e' he' => hj e' (mem_cons_of_mem e he'))

/-! ## What callers see -/

/-- A memory before its first tree. -/
def Forest.start (m : Memory E) : Forest E := ⟨m, []⟩

theorem Forest.inv_start {ops : KeyOps E K} (m : Memory E) : (start m).Inv ops [] :=
  ⟨rfl, nofun, fun _ _ _ _ _ hw => nomatch hw⟩

theorem Forest.Inv.length_trees (h : f.Inv T.ops W) : f.trees.length = W.length := by
  rw [h.trees, length_map]

theorem Forest.Inv.read_eq {β : Type} {query}
    {answer : List (K × V) → β} (h : f.Inv T.ops W) (hw : W[i]? = some w)
    (hq : ∀ tree P, TreeInv T.ops tree P → query tree = pure (answer (entries tree P))) :
    f.read i query = pure (answer w.entries) := by
  rw [read, h.tree hw, assertNotNull_some, pure_bind, hq _ _ (h.plot hw).inv, (h.plot hw).entries]

theorem Forest.Inv.compare_eq (hT : T.Lawful A spec) (h : f.Inv T.ops W) {j w'}
    (hw : W[i]? = some w) (hw' : W[j]? = some w') :
    ∃ b, f.compare i j T.treeEquals = pure b ∧ (b = true ↔
      ∀ k, Option.Rel (fun v v' => T.sameValue v v' = true) (lookup T.compare w.entries k)
        (lookup T.compare w'.entries k)) := by
  obtain ⟨b, hb, hi⟩ := TreeFunctions.treeEquals_spec hT.ops hT.sameKey (h.plot hw).inv
    (h.plot hw').inv
  rw [(h.plot hw).entries, (h.plot hw').entries] at hi
  refine ⟨b, ?_, hi⟩
  simp only [compare, h.tree hw, h.tree hw', assertNotNull_some, pure_bind, hb]

/-- After every run the comparison of two trees returns, and its result `holds` exactly if the
trees hold the same keys with equal values. -/
def EqualsRight {β : Type} (T : TreeCode K V C) (A : Allocator)
    (spec : C → (K → Option V) → K → Option V)
    (equals : RbTree (K × V) → RbTree (K × V) → Prog β) (holds : β → Prop) : Prop :=
  ∀ (m : Memory (K × V)) (events : List (Event C)), ValidEvents 0 events →
    ∃ f, runEvents T A (.start m) events = pure f ∧
      f.trees.length = (specEvents T.copyValue spec events).length ∧
      ∀ (i j : Nat) (M N : K → Option V), (specEvents T.copyValue spec events)[i]? = some M →
        (specEvents T.copyValue spec events)[j]? = some N →
        ∃ b, f.compare i j equals = pure b ∧
          (holds b ↔ ∀ k, Option.Rel (fun v w => T.sameValue v w = true) (M k) (N k))

/-- After every run a tree can be copied, and the copy is equal to it. Whatever is done with
the other trees then, every query of the copy returns what it returned. -/
def CopyRight {β Q : Type} {result : Q → Type} (T : TreeCode K V C) (A : Allocator)
    (copy : Forest (K × V) → Nat → Prog (Forest (K × V)))
    (equals : RbTree (K × V) → RbTree (K × V) → Prog β) (holds : β → Prop)
    (query : (q : Q) → RbTree (K × V) → Prog (result q)) : Prop :=
  ∀ (m : Memory (K × V)) (events : List (Event C)), ValidEvents 0 events →
    ∃ f, runEvents T A (.start m) events = pure f ∧ ∀ i < f.trees.length,
      ∃ f', copy f i = pure f' ∧ f'.trees.length = f.trees.length + 1 ∧
        (∃ b, f'.compare i f.trees.length equals = pure b ∧ holds b) ∧
        ∀ later, ValidEvents f'.trees.length later → (∀ e ∈ later, e.Spares f.trees.length) →
          ∃ f'', runEvents T A f' later = pure f'' ∧
            ∀ q, f''.read f.trees.length (query q) = f'.read f.trees.length (query q)

theorem lookup_copy_rel (hT : T.Lawful A spec) (L : List (K × V)) (k : K) :
    Option.Rel (fun v w => T.sameValue v w = true) (lookup T.compare L k)
      (lookup T.compare (L.map T.copyEntry) k) := by
  rw [lookup_copy hT]
  dsimp only
  cases lookup T.compare L k with
  | none => exact .none
  | some v => exact .some (hT.sameValue.symm (hT.copyValue v))

variable {β : Type} {enc : Bool → β} {holds : β → Prop}
  {eq : RbTree (K × V) → RbTree (K × V) → Prog β}

theorem Forest.compare_enc {j b}
    (he : ∀ tree1 tree2, eq tree1 tree2 = enc <$> T.treeEquals tree1 tree2)
    (h : f.compare i j T.treeEquals = pure b) : f.compare i j eq = pure (enc b) := by
  obtain ⟨tree1, h1, h⟩ := bind_eq_pure.mp h
  obtain ⟨tree2, h2, h⟩ := bind_eq_pure.mp h
  rw [compare, h1, pure_bind, h2, pure_bind, he, h]
  rfl

theorem equalsRight (hT : T.Lawful A spec)
    (he : ∀ tree1 tree2, eq tree1 tree2 = enc <$> T.treeEquals tree1 tree2)
    (hh : ∀ b, holds (enc b) ↔ b = true) : EqualsRight T A spec eq holds := by
  intro m events hv
  obtain ⟨f, W, hr, h, hm, _⟩ := runEvents_spec hT events (inv_start m) hv
  have hs : maps T W = specEvents T.copyValue spec events := hm
  refine ⟨f, hr, ?_, fun i j M N hM hN => ?_⟩
  · rw [← hs, maps, h.length_trees, length_map]
  · rw [← hs, maps, getElem?_map] at hM hN
    obtain ⟨w, hw, rfl⟩ := Option.map_eq_some_iff.mp hM
    obtain ⟨w', hw', rfl⟩ := Option.map_eq_some_iff.mp hN
    obtain ⟨b, hb, hi⟩ := h.compare_eq hT hw hw'
    exact ⟨enc b, compare_enc he hb, (hh b).trans hi⟩

theorem copyRight {Q : Type} {r : Q → Type}
    {query : (q : Q) → RbTree (K × V) → Prog (r q)} (hT : T.Lawful A spec)
    (he : ∀ tree1 tree2, eq tree1 tree2 = enc <$> T.treeEquals tree1 tree2)
    (hh : ∀ b, holds (enc b) ↔ b = true)
    (hq : ∀ q, ∃ answer : List (K × V) → r q, ∀ tree P, TreeInv T.ops tree P →
      query q tree = pure (answer (entries tree P))) :
    CopyRight T A (T.copyTree A) eq holds query := by
  intro m evs hv
  obtain ⟨f, W, hr, h, _, _⟩ := runEvents_spec hT evs (inv_start m) hv
  refine ⟨f, hr, fun i hi => ?_⟩
  rw [h.length_trees] at hi ⊢
  obtain ⟨w, hw⟩ : ∃ w, W[i]? = some w := ⟨_, getElem?_eq_getElem hi⟩
  obtain ⟨f', w', hc, h', hen⟩ := TreeCode.copyTree_spec hT h hw
  have hn : (W ++ [w'])[W.length]? = some w' := by simp
  have hold : (W ++ [w'])[i]? = some w := by rw [getElem?_append_left hi, hw]
  refine ⟨f', hc, h'.length_trees.trans length_append, ?_, fun later hl hs => ?_⟩
  · obtain ⟨b, hb, hif⟩ := h'.compare_eq hT hold hn
    rw [hen] at hif
    exact ⟨enc b, compare_enc he hb, (hh b).mpr (hif.mpr (lookup_copy_rel hT w.entries))⟩
  · rw [h'.length_trees] at hl
    obtain ⟨f'', W'', hlr, h'', _, hk⟩ := runEvents_spec hT later h' hl
    obtain ⟨w'', hw'', he''⟩ := hk W.length w' hn hs
    refine ⟨f'', hlr, fun q => ?_⟩
    obtain ⟨answer, ha⟩ := hq q
    rw [h''.read_eq hw'' ha, h'.read_eq hn ha, he'']

end Libparc.RedBlackNodes
