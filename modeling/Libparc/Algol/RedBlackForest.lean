import Libparc.Algol.RedBlackUpdate

/-! # Several trees in one memory

A tree is known by its place in the list of the trees made so far, and an operation on
it reads and writes the memory of all trees through its own `root`, `nil` and `size`.

The trees stay apart (`Forest.Inv`): no node, and no `nil`, belongs to two of them. An
operation that leaves alone what is not of its tree (`Apart`) keeps it so. -/
namespace Libparc.RedBlackNodes
open Libparc.RedBlack RbTree List

variable {E K : Type}

/-- The fields of all nodes, and the addresses in use. -/
structure Memory (E : Type) where
  leftChild : Ptr → Ptr
  rightChild : Ptr → Ptr
  parent : Ptr → Ptr
  color : Ptr → Color
  element : Ptr → Option E
  live : List Ptr

/-- The fields of one tree structure. -/
structure Header where
  root : Ptr
  nil : Ptr
  size : Int

def Memory.view (m : Memory E) (h : Header) : RbTree E :=
  ⟨m.leftChild, m.rightChild, m.parent, m.color, m.element, h.root, h.nil, h.size, m.live⟩

namespace RbTree

def memory (t : RbTree E) : Memory E :=
  ⟨t.leftChild, t.rightChild, t.parent, t.color, t.element, t.live⟩

def header (t : RbTree E) : Header := ⟨t.root, t.nil, t.size⟩

/-- `_Create` of both files, in a memory with other nodes in it. -/
def createIn (A : Allocator) (m : Memory E) : RbTree E :=
  let (t, nil) := (m.view ⟨NULL, NULL, 0⟩).rbNodeCreate A .black
  let t := { t with nil }
  let t := t.setChild .left nil nil
  let t := t.setChild .right nil nil
  let t := t.setParent nil nil
  t.setRoot nil

end RbTree

/-- The memory and the trees made so far. -/
structure Forest (E : Type) where
  memory : Memory E
  trees : List Header

namespace Forest

/-- A tree of the forest; `none` is NULL. -/
def tree (f : Forest E) (i : Nat) : Option (RbTree E) := f.trees[i]?.map f.memory.view

def store (f : Forest E) (i : Nat) (t : RbTree E) : Forest E := ⟨t.memory, f.trees.set i t.header⟩

def create (A : Allocator) (f : Forest E) : Forest E :=
  let t := createIn A f.memory
  ⟨t.memory, f.trees ++ [t.header]⟩

/-- A call that changes a tree. -/
def update (f : Forest E) (i : Nat) (call : RbTree E → Prog (RbTree E)) : Prog (Forest E) := do
  let tree ← assertNotNull (f.tree i) "Tree can't be NULL"
  pure (f.store i (← call tree))

/-- A call that compares two trees: both files check their invariants before they check for
NULL. -/
def compare {β : Type} (f : Forest E) (i j : Nat) (call : RbTree E → RbTree E → Prog β) :
    Prog β := do
  let tree1 ← assertNotNull (f.tree i) "Tree is null!"
  let tree2 ← assertNotNull (f.tree j) "Tree is null!"
  call tree1 tree2

/-- A call that reads a tree. -/
def read {β : Type} (f : Forest E) (i : Nat) (call : RbTree E → Prog β) : Prog β := do
  let tree ← assertNotNull (f.tree i) "Tree can't be NULL"
  call tree

end Forest

/-! ## The trees stay apart -/

/-- One tree of a forest: its structure, the tree of its nodes, its entries in order. -/
structure Plot (E : Type) where
  header : Header
  tree : ColorTree Ptr
  entries : List E

/-- The nodes of a tree, and its `nil`. -/
def Plot.nodes (w : Plot E) : List Ptr := w.header.nil :: w.tree.toList

structure Plot.Inv (ops : KeyOps E K) (m : Memory E) (w : Plot E) : Prop where
  inv : TreeInv ops (m.view w.header) w.tree
  entries : RedBlackNodes.entries (m.view w.header) w.tree = w.entries

structure Forest.Inv (ops : KeyOps E K) (f : Forest E) (W : List (Plot E)) : Prop where
  trees : f.trees = W.map Plot.header
  plots : ∀ w ∈ W, w.Inv ops f.memory
  apart : ∀ i j : Nat, i ≠ j → ∀ w w' : Plot E, W[i]? = some w → W[j]? = some w' →
    ∀ p ∈ w.nodes, p ∉ w'.nodes

variable {ops : KeyOps E K} {m m' : Memory E} {w : Plot E} {f : Forest E} {W : List (Plot E)}
  {A : Allocator} {i : Nat}

theorem Plot.Inv.live (h : w.Inv ops m) {p} (hp : p ∈ w.nodes) : p ∈ m.live := by
  obtain rfl | hp := mem_cons.mp hp
  · exact h.inv.nilLive
  · exact h.inv.live p hp

theorem Plot.Inv.frame (h : w.Inv ops m)
    (hs : ∀ p ∈ w.nodes, SameAt (m.view w.header) (m'.view w.header) p ∧
      m'.element p = m.element p ∧ p ∈ m'.live) : w.Inv ops m' := by
  obtain ⟨hi, he⟩ := h
  have hn : ∀ p ∈ w.tree.toList, p ∈ w.nodes := fun p => mem_cons_of_mem _
  have hni := hs w.header.nil (.head _)
  have hel : ∀ p ∈ w.tree.toList, (m'.view w.header).element p = (m.view w.header).element p :=
    fun p hp => (hs p (hn p hp)).2.1
  refine ⟨⟨hi.represents.frame rfl rfl fun p hp => (hs p (hn p hp)).1, hi.balanced, ?_,
    hi.filled.frame rfl rfl hel, hni.2.2, fun p hp => (hs p (hn p hp)).2.2⟩, ?_⟩
  · exact hni.1.2.2.trans hi.nilBlack
  · rw [← he]
    exact entries_congr hel

section
variable (h : f.Inv ops W) (hw : W[i]? = some w)
include h hw

theorem Forest.Inv.tree : f.tree i = some (f.memory.view w.header) := by
  rw [Forest.tree, h.trees, getElem?_map, hw]
  rfl

theorem Forest.Inv.plot : w.Inv ops f.memory :=
  h.plots w (mem_of_getElem? hw)

theorem Forest.Inv.store {t' T'} (ht : TreeInv ops t' T')
    (ha : Apart (f.memory.view w.header) t' w.tree T') :
    (f.store i t').Inv ops (W.set i ⟨t'.header, T', entries t' T'⟩) := by
  have hi : i < W.length := (List.getElem?_eq_some_iff.mp hw).1
  have hs : (W.set i ⟨t'.header, T', entries t' T'⟩)[i]? =
    some ⟨t'.header, T', entries t' T'⟩ := getElem?_set_self hi
  have ho : ∀ {j w'}, j ≠ i → (W.set i ⟨t'.header, T', entries t' T'⟩)[j]? = some w' →
      W[j]? = some w' := by
    intro j w' hj hw'
    rwa [getElem?_set_ne hj.symm] at hw'
  have hn : ∀ {j w'}, j ≠ i → W[j]? = some w' → ∀ p ∈ t'.nil :: T'.toList, p ∉ w'.nodes := by
    intro j w' hj hw' p hp hpw'
    obtain rfl | hp := mem_cons.mp hp
    · exact h.apart i j hj.symm w w' hw hw' _ (ha.nil ▸ (.head _)) hpw'
    · obtain hold | hf := ha.nodes p hp
      · exact h.apart i j hj.symm w w' hw hw' p (.tail _ hold) hpw'
      · exact hf ((h.plot hw').live hpw')
  refine ⟨?_, fun w' hw' => ?_, fun j k hjk w1 w2 hw1 hw2 p hp => ?_⟩
  · rw [map_set, ← h.trees]
    rfl
  · obtain ⟨j, hj⟩ := mem_iff_getElem?.mp hw'
    by_cases hji : j = i
    · subst hji
      cases hs.symm.trans hj
      exact ⟨ht, rfl⟩
    · have hold := ho hji hj
      refine (h.plot hold).frame fun p hp => ?_
      have hpw : p ∉ w.nodes := h.apart j i hji w' w hold hw p hp
      rw [Plot.nodes, mem_cons, not_or] at hpw
      exact ha.same p ((h.plot hold).live hp) hpw.1 hpw.2
  · by_cases hj : j = i
    · subst hj
      cases hs.symm.trans hw1
      exact hn (Ne.symm hjk) (ho (Ne.symm hjk) hw2) p hp
    · by_cases hk : k = i
      · subst hk
        cases hs.symm.trans hw2
        exact fun hp' => hn hj (ho hj hw1) p hp' hp
      · exact h.apart j k hjk w1 w2 (ho hj hw1) (ho hk hw2) p hp

end

/-! ### A new tree -/

theorem createIn_sameAt {z} (h : z ≠ A.fresh m.live) (H : Header) :
    SameAt (m.view H) ((createIn A m).memory.view H) z ∧
      (createIn A m).memory.element z = m.element z := by
  refine ⟨⟨fun s => ?_, ?_, ?_⟩, ?_⟩
  · cases s <;> simp [createIn, rbNodeCreate, memory, child,
      Memory.view, setChild, setParent, setElement, setColor,
      setRoot, h, -leftChild_eq, -rightChild_eq]
  all_goals simp [createIn, rbNodeCreate, memory, Memory.view,
    setChild, setParent, setElement, setColor, setRoot, h]

theorem treeInv_createIn (A : Allocator) (m : Memory E) : TreeInv ops (createIn A m) .nil := by
  refine ⟨⟨rfl, trivial, nodup_nil⟩, ⟨0, .nil⟩, ?_,
    ⟨A.fresh_ne_null m.live, nofun, nofun, List.Pairwise.nil, rfl⟩, mem_cons_self, nofun⟩
  simp [createIn, rbNodeCreate, Memory.view, setChild, setParent, setElement, setColor, setRoot]

theorem getElem?_concat_cases {α : Type} {l} {x a : α} {i}
    (h : (l ++ [x])[i]? = some a) : l[i]? = some a ∨ i = l.length ∧ a = x := by
  rw [getElem?_append] at h
  split at h
  · exact .inl h
  · obtain ⟨hi, ha⟩ := List.getElem?_eq_some_iff.mp h
    rw [length_singleton] at hi
    refine .inr ⟨by omega, ?_⟩
    rw [← ha, getElem_singleton]

theorem Forest.Inv.create (h : f.Inv ops W) (A : Allocator) :
    (f.create A).Inv ops (W ++ [⟨(createIn A f.memory).header, .nil, []⟩]) := by
  have hold : ∀ w ∈ W, ∀ p ∈ w.nodes, p ≠ A.fresh f.memory.live := by
    intro w hw p hp he
    exact A.fresh_not_mem f.memory.live (he ▸ (h.plots w hw).live hp)
  refine ⟨?_, fun w hw => ?_, fun i j hij w w' hw hw' p hp => ?_⟩
  · rw [map_append, ← h.trees]
    rfl
  · obtain hw | hw := mem_append.mp hw
    · refine (h.plots w hw).frame fun p hp => ?_
      obtain ⟨hs, hel⟩ := createIn_sameAt (hold w hw p hp) w.header
      exact ⟨hs, hel, mem_cons_of_mem _ ((h.plots w hw).live hp)⟩
    · cases mem_singleton.mp hw
      exact ⟨treeInv_createIn A f.memory, rfl⟩
  · -- the new tree has only its `nil`, at a fresh address
    obtain hw | ⟨rfl, rfl⟩ := getElem?_concat_cases hw
    · obtain hw' | ⟨rfl, rfl⟩ := getElem?_concat_cases hw'
      · exact h.apart i j hij w w' hw hw' p hp
      · intro hp'
        exact hold w (mem_of_getElem? hw) p hp (mem_singleton.mp hp')
    · obtain hw' | ⟨rfl, rfl⟩ := getElem?_concat_cases hw'
      · intro hp'
        exact hold w' (mem_of_getElem? hw') p hp' (mem_singleton.mp hp)
      · exact absurd rfl hij

end Libparc.RedBlackNodes
