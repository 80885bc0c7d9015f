import Libparc.Metered
import Libparc.Algol.RedBlackUpdate

/-! # The node code with a meter

The search, insertion and removal code of parc_TreeRedBlack.c once more, operation for
operation, with a meter for the nodes it looks at on its way down, the rotations and the
turns of the two repair loops. Each function erases to the one it counts for
(`insert_erases`, `removeKey_erases`, `getKey_erases`).

The meter counts the search, not the checks: with `ASSERT_INVARIANTS`, as the source has
it, each call of `_rbNodeAssertTreeInvariants` walks over the whole tree besides. -/
namespace Libparc.RedBlackNodes
open Libparc.RedBlack RbTree

variable {E K : Type}

structure Meter where
  /-- Nodes looked at on the way down. -/
  visits : Nat
  rotations : Nat
  /-- Turns of the loops of `_rbNodeFix` and `_rbNodeFixDelete`. -/
  turns : Nat

abbrev Metered (α : Type) := Exec.Metered Meter Trap α

namespace Metered

def visit : Metered Unit := modify fun m => { m with visits := m.visits + 1 }

def turn : Metered Unit := modify fun m => { m with turns := m.turns + 1 }

section
variable (t : RbTree E)

def rotate (s : Side) (node : Ptr) : Metered (RbTree E) := do
  modify fun m => { m with rotations := m.rotations + 1 }
  pure (t.rotate s node)

/-! ## The repairs -/

def rbNodeFixBody (s : RbTree E × Ptr) : Metered ((RbTree E × Ptr) ⊕ RbTree E) := do
  let (t, node) := s
  if t.color (t.parent node) = .red then
    turn
    let grandparent := t.parent (t.parent node)
    let s : Side := if t.leftChild grandparent = t.parent node then .left else .right
    let uncle := t.child s.other grandparent
    if t.color uncle = .red then
      let t := t.setColor (t.parent node) .black
      let t := t.setColor uncle .black
      let t := t.setColor (t.parent (t.parent node)) .red
      pure (.inl (t, t.parent (t.parent node)))
    else
      let (t, node) ← (do
        if t.child s.other (t.parent node) = node then
          pure (← rotate t s (t.parent node), t.parent node)
        else pure (t, node))
      let t := t.setColor (t.parent node) .black
      let t := t.setColor (t.parent (t.parent node)) .red
      pure (.inl (← rotate t s.other (t.parent (t.parent node)), node))
  else
    pure (.inr (t.setColor t.root .black))

def rbNodeFix (startNode : Ptr) : Metered (RbTree E) :=
  Exec.meteredLoop rbNodeFixBody (t, startNode)

def fixRedSibling (s : Side) (node fixNode : Ptr) : Metered (RbTree E × Ptr) := do
  if t.color fixNode = .red then
    let t := t.setColor fixNode .black
    let t := t.setColor (t.parent node) .red
    let t ← rotate t s (t.parent node)
    pure (t, t.child s.other (t.parent node))
  else pure (t, fixNode)

def fixNearChild (s : Side) (node fixNode : Ptr) : Metered (RbTree E × Ptr) := do
  if t.color (t.child s.other fixNode) = .black then
    let t := t.setColor (t.child s fixNode) .black
    let t := t.setColor fixNode .red
    let t ← rotate t s.other fixNode
    pure (t, t.child s.other (t.parent node))
  else pure (t, fixNode)

def fixFarChild (s : Side) (node fixNode : Ptr) : Metered (RbTree E) :=
  let t := t.setColor fixNode (t.color (t.parent node))
  let t := t.setColor (t.parent node) .black
  let t := t.setColor (t.child s.other fixNode) .black
  rotate t s (t.parent node)

def fixBlackSibling (s : Side) (node fixNode : Ptr) : Metered (RbTree E × Ptr) := do
  if t.color (t.leftChild fixNode) = .black ∧ t.color (t.rightChild fixNode) = .black then
    pure (t.setColor fixNode .red, t.parent node)
  else
    let (t, fixNode) ← fixNearChild t s node fixNode
    let t ← fixFarChild t s node fixNode
    pure (t, t.root)

end

section
variable (ops : KeyOps E K) (t : RbTree E)

def rbNodeFixDeleteBody (s : RbTree E × Ptr) : Metered ((RbTree E × Ptr) ⊕ RbTree E) := do
  let (t, node) := s
  if node ≠ t.root ∧ t.color node = .black then
    turn
    rbNodeAssertTreeInvariants ops t
    let s : Side := if node = t.leftChild (t.parent node) then .left else .right
    let (t, fixNode) ← fixRedSibling t s node (t.child s.other (t.parent node))
    pure (.inl (← fixBlackSibling t s node fixNode))
  else
    pure (.inr (t.setColor node .black))

def rbNodeFixDelete (node : Ptr) : Metered (RbTree E) :=
  Exec.meteredLoop (rbNodeFixDeleteBody ops) (t, node)

/-! ## The searches -/

def relativeNode (s : Side) (startNode : Ptr) : Metered Ptr :=
  Exec.meteredLoop (fun searchNode => do
    visit
    if t.child s searchNode ≠ t.nil then pure (.inl (t.child s searchNode))
    else pure (.inr searchNode)) startNode

def rbFindNode (startNode : Ptr) (key : K) : Metered (Option Ptr) :=
  Exec.meteredLoop (fun node => do
    if node ≠ t.nil then
      visit
      if t.rbNodeIsEqual ops node key then pure (.inr (some node))
      else if t.rbNodeIsGreaterThan ops node key then pure (.inl (t.leftChild node))
      else pure (.inl (t.rightChild node))
    else pure (.inr none)) startNode

def insertionPoint (key : K) : Metered (Ptr ⊕ Ptr) :=
  Exec.meteredLoop (fun (node, parent) => do
    if node ≠ t.nil then
      visit
      if t.rbNodeIsEqual ops node key then pure (.inr (.inl node))
      else if t.rbNodeIsGreaterThan ops node key then pure (.inl (t.leftChild node, node))
      else pure (.inl (t.rightChild node, node))
    else pure (.inr (.inr parent))) (t.root, t.nil)

/-! ## The operations -/

def rbNodeUnlink (node : Ptr) : Metered (RbTree E × Ptr × Color) := do
  if t.leftChild node = t.nil then
    if t.rightChild node = t.nil then
      pure (t.moveUp node t.nil, t.nil, t.color node)
    else
      pure (t.moveUp node (t.rightChild node), t.rightChild node, t.color node)
  else
    if t.rightChild node = t.nil then
      pure (t.moveUp node (t.leftChild node), t.leftChild node, t.color node)
    else
      let successor ← relativeNode t .left (t.rightChild node)
      let fixupNode := t.rightChild successor
      pure ((t.unlinkSuccessor successor).substitute node successor, fixupNode, t.color successor)

def rbNodeRemove (node : Ptr) : Metered (RbTree E) := do
  rbNodeAssertTreeInvariants ops t
  let (t, fixupNode, deleteNodeColor) ← rbNodeUnlink t node
  let t := t.setSize (t.size - 1)
  rbNodeAssertTreeInvariants ops t
  let t ← (if deleteNodeColor = .black then rbNodeFixDelete ops t fixupNode else pure t)
  rbNodeAssertTreeInvariants ops t
  pure t

def insert (A : Allocator) (ops : KeyOps E K) (t : RbTree E) (e : E) : Metered (RbTree E) := do
  let newNode := A.fresh t.live
  let t := t.withNode A e
  match ← insertionPoint ops t (ops.key e) with
  | .inl node => pure (t.rbNodeUpdate node newNode)
  | .inr parent =>
    let t := t.attach ops newNode parent (ops.key e)
    let t := t.setSize (t.size + 1)
    let t ← rbNodeFix t newNode
    rbNodeAssertTreeInvariants ops t
    pure t

def removeKey (key : K) : Metered (RbTree E × Option E) := do
  match ← rbFindNode ops t t.root key with
  | some node =>
    let t ← rbNodeRemove ops t node
    let e := t.element node
    let t := t.deallocate node
    rbNodeAssertTreeInvariants ops t
    pure (t, e)
  | none =>
    rbNodeAssertTreeInvariants ops t
    pure (t, none)

def getKey (key : K) : Metered (Option E) := do
  rbNodeAssertTreeInvariants ops t
  match ← rbFindNode ops t t.root key with
  | some node => pure (t.element node)
  | none => pure none

end

/-! ## Erasure -/

theorem rbNodeFixBody_erases (s : RbTree E × Ptr) :
    Exec.Erases (rbNodeFixBody s) (RbTree.rbNodeFixBody s) := by
  intro m
  unfold rbNodeFixBody RbTree.rbNodeFixBody
  dsimp only
  split_ifs <;> rfl

variable (ops : KeyOps E K) (t : RbTree E) (node : Ptr) (key : K)

theorem rbNodeFix_erases (startNode : Ptr) :
    Exec.Erases (rbNodeFix t startNode) (t.rbNodeFix startNode) :=
  Exec.Erases.loop rbNodeFixBody_erases _

theorem fixRedSibling_erases (s : Side) (node fixNode : Ptr) :
    Exec.Erases (fixRedSibling t s node fixNode) (pure (t.fixRedSibling s node fixNode)) := by
  intro m
  unfold fixRedSibling RbTree.fixRedSibling
  split_ifs <;> rfl

theorem fixBlackSibling_erases (s : Side) (node fixNode : Ptr) :
    Exec.Erases (fixBlackSibling t s node fixNode) (pure (t.fixBlackSibling s node fixNode)) := by
  intro m
  unfold fixBlackSibling RbTree.fixBlackSibling fixNearChild RbTree.fixNearChild
  split_ifs <;> rfl

theorem rbNodeFixDeleteBody_erases (s : RbTree E × Ptr) :
    Exec.Erases (rbNodeFixDeleteBody ops s) (RbTree.rbNodeFixDeleteBody ops s) := by
  unfold rbNodeFixDeleteBody RbTree.rbNodeFixDeleteBody
  dsimp only
  split
  · refine .tick _ (.bind (.lift _) fun _ => ?_)
    refine .bind_pure (fixRedSibling_erases _ _ _ _) ?_
    exact .bind_pure (fixBlackSibling_erases _ _ _ _) (.pure _)
  · exact .pure _

theorem rbNodeFixDelete_erases :
    Exec.Erases (rbNodeFixDelete ops t node) (t.rbNodeFixDelete ops node) :=
  Exec.Erases.loop (rbNodeFixDeleteBody_erases ops) _

theorem relativeNode_erases (s : Side) (startNode : Ptr) :
    Exec.Erases (relativeNode t s startNode) (t.relativeNode s startNode) := by
  refine Exec.Erases.loop (fun searchNode => .tick _ ?_) _
  split
  all_goals exact .pure _

theorem rbFindNode_erases (startNode : Ptr) (key : K) :
    Exec.Erases (rbFindNode ops t startNode key) (t.rbFindNode ops startNode key) := by
  refine Exec.Erases.loop (fun node m => ?_) _
  split_ifs <;> rfl

theorem insertionPoint_erases :
    Exec.Erases (insertionPoint ops t key) (t.insertionPoint ops key) := by
  refine Exec.Erases.loop (fun s m => ?_) _
  dsimp only
  split_ifs <;> rfl

theorem rbNodeUnlink_erases : Exec.Erases (rbNodeUnlink t node) (t.rbNodeUnlink node) := by
  unfold rbNodeUnlink RbTree.rbNodeUnlink
  split
  · split
    all_goals exact .pure _
  · split
    · exact .pure _
    · exact .bind (relativeNode_erases _ _ _) fun _ => .pure _

theorem rbNodeRemove_erases : Exec.Erases (rbNodeRemove ops t node) (t.rbNodeRemove ops node) := by
  refine .bind (.lift _) fun _ => .bind (rbNodeUnlink_erases _ _) fun _ =>
    .bind (.lift _) fun _ => .bind ?_ fun _ => .bind (.lift _) fun _ => .pure _
  split
  · exact rbNodeFixDelete_erases _ _ _
  · exact .pure _

/-- **The metered insertion is the insertion**, with a meter. -/
theorem insert_erases (A : Allocator) (ops : KeyOps E K) (t : RbTree E) (e : E) :
    Exec.Erases (insert A ops t e) (t.insert A ops e) := by
  refine .bind (insertionPoint_erases _ _ _) fun found => ?_
  cases found with
  | inl node => exact .pure _
  | inr parent => exact .bind (rbNodeFix_erases _ _) fun _ => .bind (.lift _) fun _ => .pure _

theorem removeKey_erases : Exec.Erases (removeKey ops t key) (t.removeKey ops key) := by
  refine .bind (rbFindNode_erases _ _ _ _) fun found => ?_
  cases found with
  | none => exact .bind (.lift _) fun _ => .pure _
  | some node =>
    exact .bind (rbNodeRemove_erases _ _ _) fun _ => .bind (.lift _) fun _ => .pure _

theorem getKey_erases : Exec.Erases (getKey ops t key) (t.getKey ops key) := by
  refine .bind (.lift _) fun _ => .bind (rbFindNode_erases _ _ _ _) fun found => ?_
  cases found with
  | none | some node => exact .pure _

end Metered

end Libparc.RedBlackNodes
