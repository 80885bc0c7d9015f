import Libparc.Algol.TreeRedBlack
import Libparc.Algol.RedBlackCost

/-! # What the calls of parc_TreeRedBlack cost

`parcTreeRedBlack_Get`, `Insert` and `Remove` with the meter of the node code. -/
namespace Libparc.TreeRedBlack
open Libparc.RedBlack Libparc.RedBlackNodes Exec

variable {K V : Type}

namespace Metered

def parcTreeRedBlackInsert (A : Allocator) (keyCompare : K → K → Int) (tree : RbTree (K × V))
    (key : Option K) (value : Option V) : RedBlackNodes.Metered (RbTree (K × V)) := do
  let key ← assertNotNull key "Key can't be NULL"
  let value ← assertNotNull value "Value can't be NULL"
  RedBlackNodes.Metered.insert A (keyOps keyCompare) tree (key, value)

def parcTreeRedBlackGet (keyCompare : K → K → Int) (tree : RbTree (K × V)) (key : K) :
    RedBlackNodes.Metered (Option V) := do
  let e ← RedBlackNodes.Metered.getKey (keyOps keyCompare) tree key
  pure (e.map Prod.snd)

def parcTreeRedBlackRemove (keyCompare : K → K → Int) (tree : RbTree (K × V))
    (key : Option K) : RedBlackNodes.Metered (RbTree (K × V) × Option V) := do
  let key ← assertNotNull key "Key can't be NULL"
  RbTree.rbNodeAssertTreeInvariants (keyOps keyCompare) tree
  let (tree, e) ← RedBlackNodes.Metered.removeKey (keyOps keyCompare) tree key
  pure (tree, e.map Prod.snd)

theorem parcTreeRedBlackInsert_erases (A : Allocator) (keyCompare : K → K → Int)
    (tree : RbTree (K × V)) (key : Option K) (v : Option V) :
    Exec.Erases (parcTreeRedBlackInsert A keyCompare tree key v)
      (TreeRedBlack.parcTreeRedBlackInsert A keyCompare tree key v) :=
  .bind (.lift _) fun _ => .bind (.lift _) fun _ => RedBlackNodes.Metered.insert_erases _ _ _ _

variable (keyCompare : K → K → Int) (tree : RbTree (K × V))

theorem parcTreeRedBlackGet_erases (key : K) :
    Exec.Erases (parcTreeRedBlackGet keyCompare tree key)
      (TreeRedBlack.parcTreeRedBlackGet keyCompare tree key) :=
  .bind (RedBlackNodes.Metered.getKey_erases _ _ _) fun _ => .pure _

theorem parcTreeRedBlackRemove_erases (key : Option K) :
    Exec.Erases (parcTreeRedBlackRemove keyCompare tree key)
      (TreeRedBlack.parcTreeRedBlackRemove keyCompare tree key) :=
  .bind (.lift _) fun _ => .bind (.lift _) fun _ =>
    .bind (RedBlackNodes.Metered.removeKey_erases _ _ _) fun _ => .pure _

end Metered

/-- The code `x` returns, and with a new meter it spends no more than this. -/
def Costs {α : Type} (x : Prog α) (metered : RedBlackNodes.Metered α)
    (visits rotations turns : Nat) : Prop :=
  ∃ r m, x = pure r ∧ metered ⟨0, 0, 0⟩ = pure (r, m) ∧
    m.visits ≤ visits ∧ m.rotations ≤ rotations ∧ m.turns ≤ turns

theorem Costs.of_erases {α : Type} {x : Prog α} {metered : RedBlackNodes.Metered α}
    {v w r k a} (he : Exec.Erases metered x) (hx : x = pure a) (hv : v ≤ w)
    (hs : ∀ m, metered ⟨0, 0, 0⟩ = pure (a, m) → Spent v r k ⟨0, 0, 0⟩ m) :
    Costs x metered w r k := by
  obtain ⟨m, hm⟩ := he.run hx ⟨0, 0, 0⟩
  obtain ⟨hvi, hr, ht⟩ := hs m hm
  simp only [Nat.zero_add] at hvi hr ht
  exact ⟨a, m, hx, hm, Nat.le_trans hvi hv, hr, ht⟩

section
variable {A : Allocator} {cmp : K → K → Int} {t : RbTree (K × V)} {T : ColorTree Ptr}

variable (hc : TotalCompare cmp) (h : TreeInv (keyOps cmp) t T) (key : K)
include hc h

theorem get_costs :
    Costs (parcTreeRedBlackGet cmp t key) (Metered.parcTreeRedBlackGet cmp t key)
      (2 * (t.size.toNat + 1).log2) 0 0 := by
  have hops := keyOps_lawful (V := V) hc
  have hca : ∃ v, parcTreeRedBlackGet cmp t key = pure v :=
    ⟨_, by rw [parcTreeRedBlackGet, getKey_spec hops h key, pure_bind]⟩
  obtain ⟨v, hca⟩ := hca
  refine .of_erases (Metered.parcTreeRedBlackGet_erases _ _ _) hca h.height_le fun m hm => ?_
  obtain ⟨e, m1, hr, hm⟩ := metered_bind_eq_pure.mp hm
  obtain ⟨-, rfl⟩ := metered_pure_eq_pure.mp hm
  exact getKey_cost hops h hr

theorem insert_costs (v : V) :
    Costs (parcTreeRedBlackInsert A cmp t (some key) (some v))
      (Metered.parcTreeRedBlackInsert A cmp t (some key) (some v))
      (2 * (t.size.toNat + 1).log2) 2 T.height := by
  have hops := keyOps_lawful (V := V) hc
  obtain ⟨t', T', hr, -⟩ := insert_spec A hops h (key, v)
  have hca : parcTreeRedBlackInsert A cmp t (some key) (some v) = pure t' := by
    simp only [parcTreeRedBlackInsert, assertNotNull_some, pure_bind, hr]
  refine .of_erases (Metered.parcTreeRedBlackInsert_erases _ _ _ _ _) hca h.height_le fun m hm => ?_
  obtain ⟨_, hk, hm⟩ := metered_lift_bind_eq_pure.mp hm
  obtain ⟨_, hv, hm⟩ := metered_lift_bind_eq_pure.mp hm
  cases hk
  cases hv
  exact insert_cost hops h hm

theorem remove_costs :
    Costs (parcTreeRedBlackRemove cmp t (some key))
      (Metered.parcTreeRedBlackRemove cmp t (some key))
      (2 * (t.size.toNat + 1).log2) 3 T.height := by
  have hops := keyOps_lawful (V := V) hc
  obtain ⟨t', T', hr, -⟩ := removeKey_spec hops h key
  have hca : ∃ res, parcTreeRedBlackRemove cmp t (some key) = pure res :=
    ⟨_, by simp only [parcTreeRedBlackRemove, assertNotNull_some, pure_bind, h.pass hops, hr]; rfl⟩
  obtain ⟨res, hca⟩ := hca
  refine .of_erases (Metered.parcTreeRedBlackRemove_erases _ _ _) hca h.height_le fun m hm => ?_
  obtain ⟨_, hk, hm⟩ := metered_lift_bind_eq_pure.mp hm
  cases hk
  obtain ⟨_, -, hm⟩ := metered_lift_bind_eq_pure.mp hm
  obtain ⟨res, m1, hre, hm⟩ := metered_bind_eq_pure.mp hm
  obtain ⟨-, rfl⟩ := metered_pure_eq_pure.mp hm
  exact removeKey_cost hops h hre

end

/-- **After every sequence of insertions and removals** a lookup, an insertion and a removal
return. On the way down they look at `2 * log2 (size + 1)` nodes at most; an insertion rotates
at most twice and a removal at most three times; and a repair loop turns at most once for each
level of the tree `T` that the links reach. -/
theorem runCalls_costs (A : Allocator) (keyCompare : K → K → Int)
    (hcmp : TotalCompare keyCompare) (calls : List (Call K V)) :
    ∃ tree T, runCalls A keyCompare calls = pure tree ∧ RedBlackInvariants keyCompare tree T ∧
      (∀ key, Costs (parcTreeRedBlackGet keyCompare tree key)
        (Metered.parcTreeRedBlackGet keyCompare tree key) (2 * (tree.size.toNat + 1).log2) 0 0) ∧
      (∀ key value, Costs (parcTreeRedBlackInsert A keyCompare tree (some key) (some value))
        (Metered.parcTreeRedBlackInsert A keyCompare tree (some key) (some value))
        (2 * (tree.size.toNat + 1).log2) 2 T.height) ∧
      (∀ key, Costs (parcTreeRedBlackRemove keyCompare tree (some key))
        (Metered.parcTreeRedBlackRemove keyCompare tree (some key))
        (2 * (tree.size.toNat + 1).log2) 3 T.height) := by
  obtain ⟨t, T, hr, hi⟩ := foldlM_run_spec (A := A) hcmp calls (treeInv_create A)
  exact ⟨t, T, hr, redBlackInvariants_of_treeInv hi, get_costs hcmp hi,
    insert_costs hcmp hi, remove_costs hcmp hi⟩

theorem runCalls_costs_three : ∃ tree T,
    runCalls Allocator.bump (fun a b : Int => a - b)
      [.insert 2 "b", .insert 1 "a", .insert 3 "c", .remove 2] = pure tree ∧
      RedBlackInvariants (fun a b : Int => a - b) tree T ∧
      ∀ key, Costs (parcTreeRedBlackRemove (fun a b : Int => a - b) tree (some key))
        (Metered.parcTreeRedBlackRemove (fun a b : Int => a - b) tree (some key))
        (2 * (tree.size.toNat + 1).log2) 3 T.height := by
  obtain ⟨tree, T, hr, hi, -, -, hre⟩ := runCalls_costs (V := String) Allocator.bump
    (fun a b : Int => a - b) totalCompare_sub
    [.insert 2 "b", .insert 1 "a", .insert 3 "c", .remove 2]
  exact ⟨tree, T, hr, hi, hre⟩

end Libparc.TreeRedBlack
