import Libparc.Algol.TreeMap

/-! # The neighbours of a key in a tree map

`parcTreeMap_GetHigherKey` and `parcTreeMap_GetLowerKey` find the node of a key
and go on to the next or previous node: down on the one side, or up through the
parents. The way up from the last node ends at the `nil` node, which has no
element, so that the result is NULL. -/
namespace Libparc.RedBlackNodes
open Libparc.RedBlack Exec List Option RbTree

variable {E K : Type}

namespace RbTree

/-- The way up of `_rbNextNode` and `_rbPreviousNode`: to the first parent that has the node
it comes from on the other side. -/
def neighbourBody (t : RbTree E) (s : Side) : Ptr × Ptr → Prog ((Ptr × Ptr) ⊕ Ptr)
  | (searchNode, parent) =>
    if parent ≠ t.nil then
      if t.child s.other parent = searchNode then pure (.inr parent)
      else pure (.inl (parent, t.parent parent))
    else pure (.inr parent)

/-- `_rbNextNode` (`s = right`) and `_rbPreviousNode` (`s = left`). -/
def neighbourNode (t : RbTree E) (s : Side) (node : Ptr) : Prog Ptr :=
  if t.child s node ≠ t.nil then t.relativeNode s.other (t.child s node)
  else Exec.loop (t.neighbourBody s) (node, t.parent node)

def rbNextNode (t : RbTree E) (node : Ptr) : Prog Ptr := t.neighbourNode .right node

def rbPreviousNode (t : RbTree E) (node : Ptr) : Prog Ptr := t.neighbourNode .left node

/-- The element of the neighbour of the node with an equal key, `none` for NULL. -/
def neighbourEntry (ops : KeyOps E K) (t : RbTree E) (neighbour : Ptr → Prog Ptr) (key : K) :
    Prog (Option E) := do
  match ← t.rbFindNode ops t.root key with
  | none => pure none
  | some node => do
    let node ← neighbour node
    pure (if node ≠ NULL then t.element node else none)

end RbTree

variable {ops : KeyOps E K} {t t' : RbTree E} {T : ColorTree Ptr} {x : Ptr}

/-! ## The next node on a side -/

theorem neighbourLoop_eq (s : Side) {ctx} : ∀ {p}, RepCtx t ctx p →
    p ≠ t.nil → p ∉ ctxLabels ctx → (ctxLabels ctx).Nodup →
    Exec.loop (t.neighbourBody s) (p, parentPtr t.nil ctx) =
      pure ((beyond s ctx).head?.getD t.nil) := by
  induction ctx with
  | nil =>
    intro p _ _ _ _
    have hn : beyond s ([] : List (Frame Ptr)) = [] := beyond_eq_nil (by simp)
    rw [hn]
    exact loop_done (if_neg fun hne => hne rfl)
  | cons f ctx ih =>
    intro p hc hp hpc hno
    obtain ⟨hl, -, hpa, hsi, ho, -, hr⟩ := hc
    have hpr : parentPtr t.nil (f :: ctx) = f.label := rfl
    rw [hpr]
    obtain hs | hs := Side.eq_or_eq_other f.side s
    · -- the node is on the side of the way: on with the parent
      have hne : t.child s.other f.label ≠ p := by
        rw [← hs, ho]
        refine (ne_ptr hp fun hm => ?_).symm
        exact hpc (mem_ctxLabels_cons.mpr (.inr (.inl hm)))
      obtain ⟨-, -, hn', hnt, -⟩ := nodup_ctxLabels_cons.mp hno
      have hb : t.neighbourBody s (p, f.label) = pure (.inl (f.label, parentPtr t.nil ctx)) := by
        rw [neighbourBody, if_pos hl, if_neg hne, hpa]
      rw [loop_next hb, beyond_cons_same hs]
      exact ih hr hl hnt hn'
    · have hb : t.neighbourBody s (p, f.label) = pure (.inr f.label) := by
        rw [neighbourBody, if_pos hl, ← hs, if_pos hsi]
      rw [loop_done hb, beyond_cons_other hs]
      rfl

/-- **The neighbour of a node** is the next one in the order, or `nil` behind the last. -/
theorem neighbourNode_spec (hr : Represents t T) (hx : x ∈ T.toList) (s : Side) :
    ∃ L₁ L₂, T.toward s = L₁ ++ x :: L₂ ∧ t.neighbourNode s x = pure (L₂.head?.getD t.nil) := by
  obtain ⟨ctx, c, l, r, rfl⟩ := exists_plug_of_mem hx
  obtain ⟨a, b, hj⟩ := ColorTree.node_eq_join s c l x r
  rw [hj] at hr ⊢
  obtain ⟨hc, hn, hno⟩ := represents_plug.mp hr
  obtain ⟨hne, -, hp, hch, -, ha, -⟩ := rep_join.mp hn
  refine ⟨(beyond s.other ctx).reverse ++ b.toward s, a.toward s ++ beyond s ctx, ?_, ?_⟩
  · rw [toward_plug, toward_join]
    simp
  · rw [neighbourNode, hch]
    by_cases hni : a = .nil
    · subst hni
      obtain ⟨-, hn', hd⟩ := nodup_plug.mp hno
      have he : (ColorTree.nil : ColorTree Ptr).toward s = [] := by cases s <;> rfl
      rw [if_neg (fun h => h rfl), hp, he]
      rw [ptr_join] at hc
      refine neighbourLoop_eq s hc hne (hd x ?_) hn'
      rw [ColorTree.mem_toList_join]
      exact .inr (.inl rfl)
    · obtain ⟨y, hy, ctx', c', Q, hpl, hs⟩ := relativeNode_spec s.other ha hni
      rw [if_pos ((ptr_ne_nil ha).mpr hni), hy]
      have hf : a.toward s = y :: (Q.toward s ++ beyond s ctx') := by
        rw [hpl, toward_plug, beyond_eq_nil hs, ColorTree.join_other, toward_join]
        cases s <;> rfl
      rw [hf]
      rfl

/-! ## The element of the neighbour -/

/-- A comparison on the way to a side. -/
def toward (s : Side) (compare : K → K → Int) : K → K → Int :=
  match s with
  | .left => fun a b => compare b a
  | .right => compare

theorem toward_total {cmp : K → K → Int} (h : TotalCompare cmp) (s : Side) :
    TotalCompare (toward s cmp) := by
  cases s
  · exact h.swap
  · exact h

theorem toward_eq_zero {cmp} (h : TotalCompare cmp) (s : Side) (a b : K) :
    toward s cmp a b = 0 ↔ cmp a b = 0 := by
  cases s
  · exact h.eq_zero_swap b a
  · exact Iff.rfl

/-- The elements on the way to a side. -/
def entriesToward (s : Side) (t : RbTree E) (T : ColorTree Ptr) : List E :=
  match s with
  | .left => (entries t T).reverse
  | .right => entries t T

theorem entriesToward_eq (s : Side) (t : RbTree E) (T : ColorTree Ptr) :
    entriesToward s t T = (T.toward s).filterMap t.element := by
  cases s
  · exact (filterMap_reverse ..).symm
  · rfl

theorem TreeInv.sorted_toward (h : TreeInv ops t T) (s : Side) :
    Ascending.Sorted ops.key (toward s ops.compare) (entriesToward s t T) := by
  cases s
  · exact h.sorted.reverse
  · exact h.sorted

/-- **The element of the neighbour of a stored key** is the first one with a key beyond it. -/
theorem neighbourEntry_spec (hops : ops.Lawful) (h : TreeInv ops t T)
    (hn : t.element t.nil = none) (s : Side) {key : K}
    (hs : ∃ e ∈ entries t T, ops.compare (ops.key e) key = 0) :
    t.neighbourEntry ops (t.neighbourNode s) key =
      pure (Ascending.next ops.key (toward s ops.compare) key (entriesToward s t T)) := by
  obtain ⟨found, hfi, hso, hno⟩ := rbFindNode_spec hops h.represents h.filled key
  cases found with
  | none =>
    obtain ⟨e, he, heq⟩ := hs
    obtain ⟨p, hp, hpe⟩ := mem_filterMap.mp he
    exact absurd (by simpa [compareKey, hpe] using heq) (hno rfl p hp)
  | some x =>
    obtain ⟨hx, heq⟩ := hso x rfl
    obtain ⟨e, he⟩ := isSome_iff_exists.mp (h.filled.full x hx)
    have hk : ops.compare (ops.key e) key = 0 := by simpa [compareKey, he] using heq
    obtain ⟨L₁, L₂, hl, hnd⟩ := neighbourNode_spec h.represents hx s
    have hsp : entriesToward s t T = L₁.filterMap t.element ++ e :: L₂.filterMap t.element := by
      rw [entriesToward_eq, hl, filterMap_append, filterMap_cons_some he]
    have hsr := h.sorted_toward s
    rw [hsp] at hsr
    rw [hsp, Ascending.next_equal (toward_total hops.total s) hsr
      ((toward_eq_zero hops.total s _ _).mpr hk)]
    simp only [neighbourEntry, hfi, hnd, pure_bind]
    cases L₂ with
    | nil =>
      rw [head?_nil, getD_none, if_pos h.filled.nilNonNull, hn]
      rfl
    | cons p L₂ =>
      have hp : p ∈ T.toList := by
        rw [← mem_toward (s := s), hl]
        simp
      obtain ⟨f, hf⟩ := isSome_iff_exists.mp (h.filled.full p hp)
      rw [head?_cons, getD_some, if_pos (h.filled.nonNull p hp), hf,
        filterMap_cons_some hf]
      rfl

/-! ## The `nil` node has no element -/

theorem insert_element_nil {A e} (hops : ops.Lawful) (h : TreeInv ops t T)
    (hr : t.insert A ops e = pure t') : t'.nil = t.nil ∧ t'.element t.nil = t.element t.nil := by
  have hw : TreeInv ops (t.withNode A e) T := h.withNode
  have hn : (t.withNode A e).element t.nil = t.element t.nil := by
    rw [withNode_element, if_neg h.fresh_ne_nil.symm]
  obtain ⟨found, hp, hi, hin⟩ := insertionPoint_spec hops hw.represents hw.filled (ops.key e)
  unfold RbTree.insert at hr
  simp only [hp, pure_bind] at hr
  cases found with
  | inl x =>
    obtain ⟨hx, -⟩ := hi x rfl
    have hne : t.nil ≠ x := (hw.represents.rep.ne_nil hx).symm
    cases hr
    refine ⟨rfl, ?_⟩
    rw [rbNodeUpdate, element_deallocate h.fresh_ne_nil.symm, element_setElement_of_ne hne,
      hn]
  | inr parent =>
    obtain ⟨ctx, hs, rfl⟩ := hin parent rfl
    obtain ⟨t1, T₁, hf, hiv, -, he, hn1, -⟩ := attach_spec hops h hs
    unfold withAttached at hf
    simp only [withNode_nil, hf, pure_bind, hiv.pass hops] at hr
    cases hr
    exact ⟨hn1, (congrFun he _).trans hn⟩

theorem removeKey_element_nil {key e} (hops : ops.Lawful) (h : TreeInv ops t T)
    (hr : t.removeKey ops key = pure (t', e)) :
    t'.nil = t.nil ∧ t'.element t.nil = t.element t.nil := by
  obtain ⟨found, hf, hs, -⟩ := rbFindNode_spec hops h.represents h.filled key
  unfold removeKey at hr
  simp only [hf, pure_bind] at hr
  cases found with
  | none =>
    simp only [h.pass hops, pure_bind] at hr
    cases hr
    exact ⟨rfl, rfl⟩
  | some x =>
    obtain ⟨hx, -⟩ := hs x rfl
    obtain ⟨t1, T₁, L₁, L₂, hre, -, -, -, he, hn, -⟩ := rbNodeRemove_spec hops h hx
    simp only [hre, pure_bind] at hr
    obtain ⟨-, -, heq⟩ := bind_eq_pure.mp hr
    cases heq
    refine ⟨hn, ?_⟩
    rw [element_deallocate (h.represents.rep.ne_nil hx).symm, he]

end Libparc.RedBlackNodes

namespace Libparc.TreeMap
open Libparc.RedBlack Libparc.RedBlackNodes

variable {K V : Type} (keys : KeyFunctions K)

section
variable (tree : RbTree (K × V))

def parcTreeMapGetHigherEntry (key : K) : Prog (Option (K × V)) :=
  tree.neighbourEntry keys.ops tree.rbNextNode key

def parcTreeMapGetLowerEntry (key : K) : Prog (Option (K × V)) :=
  tree.neighbourEntry keys.ops tree.rbPreviousNode key

def parcTreeMapGetHigherKey (key : K) : Prog (Option K) := do
  pure ((← parcTreeMapGetHigherEntry keys tree key).map Prod.fst)

def parcTreeMapGetLowerKey (key : K) : Prog (Option K) := do
  pure ((← parcTreeMapGetLowerEntry keys tree key).map Prod.fst)

/-- A program that goes from key to key with `parcTreeMap_GetHigherKey`. -/
def stepKeysBody : Option K × List K → Prog ((Option K × List K) ⊕ List K)
  | (none, visited) => pure (.inr visited)
  | (some key, visited) => do
    let next ← parcTreeMapGetHigherKey keys tree key
    pure (.inl (next, visited ++ [key]))

/-- The keys that it comes to from the first key on, until there is no next one. -/
def stepKeys : Prog (List K) := do
  let first ← parcTreeMapGetFirstKey keys tree
  Exec.loop (stepKeysBody keys tree) (first, [])

end

/-- The first of the keys beyond `k`, and NULL if there is none. -/
def Nearest (compare : K → K → Int) (ks : List K) (k : K) : Option K → Prop
  | some r => r ∈ ks ∧ compare k r < 0 ∧ ∀ q ∈ ks, compare k q < 0 → compare r q ≤ 0
  | none => ∀ q ∈ ks, ¬ compare k q < 0

/-- The least of the keys that are greater than `k`. -/
def LeastAbove (ks : List K) (k : K) (r : Option K) : Prop := Nearest keys.compare ks k r

/-- The greatest of the keys that are less than `k`. -/
def GreatestBelow (ks : List K) (k : K) (r : Option K) : Prop :=
  Nearest (fun a b => keys.compare b a) ks k r

section
variable {keys} {A : Allocator} {tree tree' : RbTree (K × V)} {T : ColorTree Ptr} {M : K → Option V}

theorem mem_entriesToward {s e} : e ∈ entriesToward s tree T ↔ e ∈ entries tree T := by
  cases s
  · exact List.mem_reverse
  · exact Iff.rfl

section
variable (hk : keys.Lawful) (h : TreeInv keys.ops tree T) (hn : tree.element tree.nil = none)
include hk h hn

theorem neighbourKey_spec (s : Side) {key : K}
    (hs : ∃ e ∈ entries tree T, keys.compare e.1 key = 0) :
    ∃ e, tree.neighbourEntry keys.ops (tree.neighbourNode s) key = pure e ∧
      Nearest (toward s keys.compare) ((entries tree T).map Prod.fst) key (e.map Prod.fst) := by
  have ht := toward_total hk.total s
  have hso : Ascending.Sorted Prod.fst (toward s keys.compare) (entriesToward s tree T) :=
    h.sorted_toward s
  refine ⟨_, neighbourEntry_spec hk.ops h hn s hs, ?_⟩
  show Nearest _ _ _ ((Ascending.next Prod.fst (toward s keys.compare) key
    (entriesToward s tree T)).map Prod.fst)
  cases hne : Ascending.next Prod.fst (toward s keys.compare) key (entriesToward s tree T) with
  | none =>
    intro q hq
    obtain ⟨e, he, rfl⟩ := List.mem_map.mp hq
    exact Ascending.next_eq_none hne e (mem_entriesToward.mpr he)
  | some r =>
    obtain ⟨hr, hlt, hf⟩ := Ascending.next_eq_some hso hne
    refine ⟨List.mem_map_of_mem (mem_entriesToward.mp hr), hlt, fun q hq hkq => ?_⟩
    obtain ⟨e, he, rfl⟩ := List.mem_map.mp hq
    obtain rfl | hre := hf e (mem_entriesToward.mpr he) hkq
    · exact Int.le_of_eq (ht.self _)
    · exact Int.le_of_lt hre

theorem higherKey_of_entry {es1 es2 e} (hs : entries tree T = es1 ++ e :: es2) :
    parcTreeMapGetHigherKey keys tree e.1 = pure (es2.head?.map Prod.fst) := by
  have hse : keys.compare e.1 e.1 = 0 := hk.total.self _
  have hso : Ascending.Sorted Prod.fst keys.compare (entries tree T) := h.sorted
  have hne : Ascending.next Prod.fst keys.compare e.1 (entries tree T) = es2.head? := by
    rw [hs] at hso ⊢
    exact Ascending.next_equal hk.total hso hse
  have he : parcTreeMapGetHigherEntry keys tree e.1 = pure es2.head? := by
    rw [← hne]
    exact neighbourEntry_spec hk.ops h hn .right ⟨e, by simp [hs], hse⟩
  rw [parcTreeMapGetHigherKey, he, pure_bind]

theorem stepKeysLoop_eq (es2 : List (K × V)) : ∀ es1, entries tree T = es1 ++ es2 →
    Exec.loop (stepKeysBody keys tree) (es2.head?.map Prod.fst, es1.map Prod.fst) =
      pure ((entries tree T).map Prod.fst) := by
  induction es2 with
  | nil =>
    intro es1 hs
    rw [hs, List.append_nil]
    exact Exec.loop_done rfl
  | cons e es2 ih =>
    intro es1 hs
    have hne := ih (es1 ++ [e]) (by simp [hs])
    rw [List.map_append] at hne
    refine (Exec.loop_next ?_).trans hne
    simp only [List.head?_cons, Option.map_some, stepKeysBody,
      higherKey_of_entry hk h hn hs, pure_bind]
    rfl

theorem stepKeys_eq : stepKeys keys tree = pure ((entries tree T).map Prod.fst) := by
  simp only [stepKeys, parcTreeMapGetFirstKey, parcTreeMapGetFirstEntry,
    extreme_spec hk.ops h .left, pure_bind]
  exact stepKeysLoop_eq hk h hn (entries tree T) [] rfl

theorem Call.run_nil {call : Call K V} {r}
    (hr : call.run keys A tree = pure (tree', r)) : tree'.element tree'.nil = none := by
  suffices hs : tree'.nil = tree.nil ∧ tree'.element tree.nil = tree.element tree.nil by
    rw [hs.1, hs.2, hn]
  cases call with
  | put key v =>
    obtain ⟨tree1, hp, heq⟩ := Exec.bind_eq_pure.mp hr
    cases heq
    exact insert_element_nil hk.ops h hp
  | remove key =>
    simp only [Call.run, parcTreeMapRemove, assertNotNull_some, pure_bind, h.pass hk.ops] at hr
    obtain ⟨⟨tree1, e⟩, hre, heq⟩ := Exec.bind_eq_pure.mp hr
    cases heq
    exact removeKey_element_nil hk.ops h hre
  | removeAndRelease key =>
    simp only [Call.run, parcTreeMapRemoveAndRelease, assertNotNull_some, pure_bind] at hr
    obtain ⟨tree1, hrl, heq⟩ := Exec.bind_eq_pure.mp hr
    cases heq
    obtain ⟨⟨tree2, e⟩, hre, heq'⟩ := Exec.bind_eq_pure.mp hrl
    cases heq'
    exact removeKey_element_nil hk.ops h hre
  | get key =>
    obtain ⟨v, -, heq⟩ := Exec.bind_eq_pure.mp hr
    cases heq
    exact ⟨rfl, rfl⟩

end

theorem runCalls_nil (hk : keys.Lawful) (cs : List (Call K V)) : ∀ {tree : RbTree (K × V)}
    {T M rs}, Simulates keys tree T M →
    tree.element tree.nil = none → runCalls keys A tree cs = pure (tree', rs) →
    tree'.element tree'.nil = none := by
  induction cs with
  | nil =>
    intro tree T M rs _ hn hr
    cases hr
    exact hn
  | cons call cs ih =>
    intro tree T M rs h hn hr
    obtain ⟨tree1, T₁, hc, h1, -⟩ := call.run_simulates (A := A) hk h
    simp only [runCalls, hc, pure_bind] at hr
    obtain ⟨⟨tree2, rs2⟩, hre, heq⟩ := Exec.bind_eq_pure.mp hr
    cases heq
    exact ih h1 (call.run_nil hk h.inv hn hc) hre

end

/-- **The neighbours of a stored key** in every tree map that calls make of a new one: the next
higher key is the least greater one and the next lower key the greatest less one, and going from
the first key to the next higher ones lists the keys. -/
theorem neighbours_of_stored_keys (A : Allocator) (hk : keys.Lawful) (calls : List (Call K V)) :
    ∃ tree ks, runCalls keys A (parcTreeMapCreateCustom A) calls =
        pure (tree, (specCalls keys (fun _ => none) calls).2) ∧
      Shows keys tree (specCalls keys (fun _ => none) calls).1 ks ∧
      (∀ k, (∃ k' ∈ ks, keys.equals k' k = true) → ∃ higher lower,
        parcTreeMapGetHigherKey keys tree k = pure higher ∧ LeastAbove keys ks k higher ∧
        parcTreeMapGetLowerKey keys tree k = pure lower ∧ GreatestBelow keys ks k lower) ∧
      stepKeys keys tree = pure ks := by
  obtain ⟨tree, T, hr, hs⟩ := runCalls_simulates (A := A) hk calls (simulates_create A)
  have hn := runCalls_nil hk calls (simulates_create A) rfl hr
  refine ⟨tree, _, hr, hs.shows hk, fun k hst => ?_, stepKeys_eq hk hs.inv hn⟩
  have hs' : ∃ e ∈ entries tree T, keys.compare e.1 k = 0 := by
    obtain ⟨k', hk', heq⟩ := hst
    obtain ⟨e, he, rfl⟩ := List.mem_map.mp hk'
    exact ⟨e, he, (hk.equals_iff _ _).mp heq⟩
  obtain ⟨higher, hh, hl⟩ := neighbourKey_spec hk hs.inv hn .right hs'
  obtain ⟨lower, hlo, hg⟩ := neighbourKey_spec hk hs.inv hn .left hs'
  refine ⟨higher.map Prod.fst, lower.map Prod.fst, ?_, hl, ?_, hg⟩
  · exact Exec.bind_eq_pure.mpr ⟨higher, hh, rfl⟩
  · exact Exec.bind_eq_pure.mpr ⟨lower, hlo, rfl⟩

/-- Three keys, one of them removed again. -/
theorem neighbours_of_two : ∃ tree ks,
    runCalls intKeys Allocator.bump (parcTreeMapCreateCustom Allocator.bump)
        [.put 2 "b", .put 1 "a", .put 3 "c", .remove 2] =
      pure (tree, [none, none, none, some "b"]) ∧
      Shows intKeys tree (specCalls intKeys (fun _ => none)
        [.put 2 "b", .put 1 "a", .put 3 "c", .remove 2]).1 ks ∧
      (∀ k, (∃ k' ∈ ks, intKeys.equals k' k = true) → ∃ higher lower,
        parcTreeMapGetHigherKey intKeys tree k = pure higher ∧ LeastAbove intKeys ks k higher ∧
        parcTreeMapGetLowerKey intKeys tree k = pure lower ∧ GreatestBelow intKeys ks k lower) ∧
      stepKeys intKeys tree = pure ks :=
  neighbours_of_stored_keys intKeys Allocator.bump intKeys_lawful _

end Libparc.TreeMap
