import Libparc.Algol.RedBlackUpdate

/-! # parc_TreeRedBlack

The public calls of the red-black tree, with a comparison function for its
keys. Keys and values are opaque pointers to the tree; NULL is `none`. What
the free functions do to keys and values is not visible in the tree. -/
namespace Libparc.TreeRedBlack
open Libparc.RedBlack Libparc.RedBlackNodes Prod

variable {K V : Type}

section
variable (keyCompare : K → K → Int) (tree : RbTree (K × V))

/-- Two keys are equal when the comparison function returns zero. -/
def keyOps : KeyOps (K × V) K where
  key := fst
  equals a b := keyCompare a b == 0
  compare := keyCompare
  nullTexts := ["We have a null key!!", "We have a null value!!"]

theorem keyOps_lawful {keyCompare : K → K → Int} (h : TotalCompare keyCompare) :
    (keyOps (V := V) keyCompare).Lawful :=
  ⟨h, fun a b => by simp [keyOps]⟩

def parcTreeRedBlackCreate (A : Allocator) : RbTree (K × V) := RbTree.create A

def parcTreeRedBlackInsert (A : Allocator) (keyCompare : K → K → Int) (tree : RbTree (K × V))
    (key : Option K) (value : Option V) : Prog (RbTree (K × V)) := do
  let key ← assertNotNull key "Key can't be NULL"
  let value ← assertNotNull value "Value can't be NULL"
  tree.insert A (keyOps keyCompare) (key, value)

def parcTreeRedBlackGet (key : K) : Prog (Option V) := do
  pure ((← tree.getKey (keyOps keyCompare) key).map snd)

def parcTreeRedBlackRemove (key : Option K) : Prog (RbTree (K × V) × Option V) := do
  let key ← assertNotNull key "Key can't be NULL"
  RbTree.rbNodeAssertTreeInvariants (keyOps keyCompare) tree
  let (tree, e) ← tree.removeKey (keyOps keyCompare) key
  pure (tree, e.map snd)

def parcTreeRedBlackRemoveAndDestroy (key : Option K) : Prog (RbTree (K × V)) := do
  let key ← assertNotNull key "Key can't be NULL"
  let (tree, _) ← tree.removeKey (keyOps keyCompare) key
  pure tree

def parcTreeRedBlackFirstKey : Prog (Option K) := do
  pure ((← tree.extreme (keyOps keyCompare) .left).map fst)

def parcTreeRedBlackLastKey : Prog (Option K) := do
  pure ((← tree.extreme (keyOps keyCompare) .right).map fst)

def parcTreeRedBlackSize : Prog Int :=
  tree.sizeOf (keyOps keyCompare)

def parcTreeRedBlackKeys : Prog (List K) :=
  tree.collect (keyOps keyCompare) fst

def parcTreeRedBlackValues : Prog (List V) :=
  tree.collect (keyOps keyCompare) snd

/-! ## Runs -/

/-- The calls that change a tree. -/
inductive Call (K V : Type) where
  | insert (key : K) (value : V)
  | remove (key : K)
  | removeAndDestroy (key : K)

def Call.run (A : Allocator) (keyCompare : K → K → Int) (tree : RbTree (K × V)) :
    Call K V → Prog (RbTree (K × V))
  | .insert key value => parcTreeRedBlackInsert A keyCompare tree (some key) (some value)
  | .remove key => do
    let (tree, _) ← parcTreeRedBlackRemove keyCompare tree (some key)
    pure tree
  | .removeAndDestroy key => parcTreeRedBlackRemoveAndDestroy keyCompare tree (some key)

/-- What a call does to the map that a tree holds. -/
def Call.spec (M : K → Option V) : Call K V → K → Option V
  | .insert key value => fun k => if keyCompare key k = 0 then some value else M k
  | .remove key => fun k => if keyCompare key k = 0 then none else M k
  | .removeAndDestroy key => fun k => if keyCompare key k = 0 then none else M k

end

/-- The tree after a sequence of calls on a new tree. -/
def runCalls (A : Allocator) (keyCompare : K → K → Int) (calls : List (Call K V)) :
    Prog (RbTree (K × V)) :=
  calls.foldlM (Call.run A keyCompare) (parcTreeRedBlackCreate A)

section
variable {A : Allocator} {cmp : K → K → Int} {t : RbTree (K × V)} {T : ColorTree Ptr}

theorem Call.run_spec (hc : TotalCompare cmp) (h : TreeInv (keyOps cmp) t T) (call : Call K V) :
    ∃ t' T', call.run A cmp t = pure t' ∧ TreeInv (keyOps cmp) t' T' ∧
      Apart t t' T T' ∧ lookup cmp (entries t' T') = call.spec cmp (lookup cmp (entries t T)) := by
  have hops := keyOps_lawful (V := V) hc
  cases call with
  | insert key v =>
    obtain ⟨t', T', hr, hi, he, ha⟩ := insert_spec A hops h (key, v)
    refine ⟨t', T', ?_, hi, ha, ?_⟩
    · simp only [Call.run, parcTreeRedBlackInsert, assertNotNull_some, pure_bind, hr]
    · rw [he]
      exact lookup_insert hc (key, v) _
  | remove key =>
    obtain ⟨t', T', hr, hi, he, ha⟩ := removeKey_spec hops h key
    refine ⟨t', T', ?_, hi, ha, ?_⟩
    · simp only [Call.run, parcTreeRedBlackRemove, assertNotNull_some, pure_bind, h.pass hops, hr]
    · rw [he]
      exact lookup_remove hc key _
  | removeAndDestroy key =>
    obtain ⟨t', T', hr, hi, he, ha⟩ := removeKey_spec hops h key
    refine ⟨t', T', ?_, hi, ha, ?_⟩
    · simp only [Call.run, parcTreeRedBlackRemoveAndDestroy, assertNotNull_some, pure_bind, hr]
    · rw [he]
      exact lookup_remove hc key _

theorem foldlM_run_spec (hc : TotalCompare cmp) :
    ∀ (cs : List (Call K V)) {t T}, TreeInv (keyOps cmp) t T →
      ∃ t' T', cs.foldlM (Call.run A cmp) t = pure t' ∧ TreeInv (keyOps cmp) t' T'
  | [], t, T, h => ⟨t, T, rfl, h⟩
  | call :: cs, t, T, h => by
    obtain ⟨t1, T₁, hca, h1, _⟩ := call.run_spec (A := A) hc h
    obtain ⟨t', T', hcl, h'⟩ := foldlM_run_spec hc cs h1
    refine ⟨t', T', ?_, h'⟩
    rw [List.foldlM_cons, hca, pure_bind, hcl]

end

/-! ## The red-black invariants, in the terms of the memory -/

/-- The tree `T` of addresses is what the child links of `tree` reach from its
root, and it is a red-black tree. -/
structure RedBlackInvariants (keyCompare : K → K → Int) (tree : RbTree (K × V))
    (T : ColorTree Ptr) : Prop where
  /-- `T` is linked and coloured in memory as it stands. -/
  reached : Represents tree T
  /-- The nodes carry keys, in strictly increasing order. -/
  keys : ∃ es : List (K × V), T.toList.map tree.element = es.map some ∧
    (es.map fst).Pairwise fun a b => keyCompare a b < 0
  rootBlack : tree.color tree.root = .black
  nilBlack : tree.color tree.nil = .black
  noRedRed : ∀ x ∈ T.toList, tree.color x = .red → ∀ s, tree.color (tree.child s x) = .black
  sameBlackCount : ∀ m ∈ blackCounts T, ∀ n ∈ blackCounts T, m = n
  parents : ∀ x ∈ T.toList, ∀ s, tree.child s x ≠ tree.nil →
    tree.parent (tree.child s x) = x
  size : tree.size = T.toList.length

theorem child_spec {t : RbTree (K × V)} {U x q} (h : Rep t U x)
    (hq : q = ptr t.nil U) (hn : t.color t.nil = .black) :
    t.color q = U.rootColor ∧ (q ≠ t.nil → t.parent q = x) := by
  subst hq
  refine ⟨h.color_ptr hn, fun hne => ?_⟩
  cases U with
  | nil => exact absurd rfl hne
  | node c l y r => exact h.2.2.1

theorem redBlackInvariants_of_treeInv {keyCompare} {t : RbTree (K × V)}
    {T} (h : TreeInv (keyOps keyCompare) t T) : RedBlackInvariants keyCompare t T := by
  obtain ⟨n, hb⟩ := h.balanced
  have hn : ∀ x ∈ T.toList, ∃ c l r, (c = .red → l.rootColor = .black ∧ r.rootColor = .black) ∧
      t.color x = c ∧ t.child .left x = ptr t.nil l ∧ t.child .right x = ptr t.nil r ∧
      Rep t l x ∧ Rep t r x := by
    intro x hx
    have hre := h.represents
    obtain ⟨ctx, c, l, r, rfl⟩ := exists_plug_of_mem hx
    obtain ⟨_, ⟨_, hc, _, hl, hr, hL, hR⟩, _⟩ := represents_plug.mp hre
    obtain ⟨_, _, hba, _⟩ := Fits.of_plug hb
    exact ⟨c, l, r, hba.noRedRed.1, hc, hl, hr, hL, hR⟩
  refine ⟨h.represents, ⟨entries t T, map_element_eq h.filled.full, ?_⟩, ?_, h.nilBlack, ?_, ?_, ?_,
    h.filled.size⟩
  · rw [List.pairwise_map]
    exact h.sorted
  · rw [h.represents.root, h.represents.rep.color_ptr h.nilBlack, hb.rootColor]
  · intro x hx hrd s
    obtain ⟨c, l, r, hco, hc, hl, hr, hL, hR⟩ := hn x hx
    obtain ⟨hlb, hrb⟩ := hco (hc.symm.trans hrd)
    cases s with
    | left => rw [(child_spec hL hl h.nilBlack).1, hlb]
    | right => rw [(child_spec hR hr h.nilBlack).1, hrb]
  · intro m hm k hk
    rw [hb.blackCounts m hm, hb.blackCounts k hk]
  · intro x hx s
    obtain ⟨c, l, r, _, _, hl, hr, hL, hR⟩ := hn x hx
    cases s with
    | left => exact (child_spec hL hl h.nilBlack).2
    | right => exact (child_spec hR hr h.nilBlack).2

/-- **Every sequence of insertions and removals leaves a red-black tree.** -/
theorem runCalls_redBlack (A : Allocator) (keyCompare : K → K → Int)
    (hcmp : TotalCompare keyCompare) (calls : List (Call K V)) :
    ∃ tree T, runCalls A keyCompare calls = pure tree ∧ RedBlackInvariants keyCompare tree T := by
  obtain ⟨t, T, hr, hi⟩ := foldlM_run_spec (A := A) hcmp calls (treeInv_create A)
  exact ⟨t, T, hr, redBlackInvariants_of_treeInv hi⟩

/-- A run with a two-child removal, an update and an absent key. -/
theorem runCalls_redBlack_five : ∃ tree T,
    runCalls Allocator.bump (fun a b : Int => a - b)
      [.insert 2 "b", .insert 1 "a", .insert 3 "c", .insert 1 "A", .remove 2,
        .removeAndDestroy 7] = pure tree ∧
      RedBlackInvariants (fun a b : Int => a - b) tree T :=
  runCalls_redBlack Allocator.bump _ totalCompare_sub _

end Libparc.TreeRedBlack
