import Libparc.Runtime
import Libparc.RedBlack

/-! # The node code of parc_TreeRedBlack.c and parc_TreeMap.c

Both files hold the same static functions over nodes with parent pointers and
a shared `nil` node; they differ in what a node carries and how keys are
compared. The functions are modelled once, over the element type `E` of a
node and the key functions of `KeyOps`. Memory is one function per field of
the node structure, so a write to a field leaves the other fields alone.

The mirrored branches of the source are one definition over a `Side`. -/
namespace Libparc.RedBlackNodes
open Libparc.RedBlack Function

/-- A tree structure together with the memory of its nodes. -/
structure RbTree (E : Type) where
  leftChild : Ptr → Ptr
  rightChild : Ptr → Ptr
  parent : Ptr → Ptr
  color : Ptr → Color
  /-- The key and value of a node, `none` where the source has NULL. -/
  element : Ptr → Option E
  root : Ptr
  nil : Ptr
  /-- An `int`, which is taken to be large enough. -/
  size : Int
  /-- The addresses of allocated nodes, `nil` included. -/
  live : List Ptr

/-- The key of an element, the two tests the tree makes on keys, and the texts of the checks
that a node has an element, a key and a value. -/
structure KeyOps (E K : Type) where
  key : E → K
  equals : K → K → Bool
  compare : K → K → Int
  nullTexts : List String

variable {E K σ : Type}

namespace RbTree

def child (t : RbTree E) : Side → Ptr → Ptr
  | .left => t.leftChild
  | .right => t.rightChild

def setChild (t : RbTree E) (s : Side) (p q : Ptr) : RbTree E :=
  match s with
  | .left => { t with leftChild := update t.leftChild p q }
  | .right => { t with rightChild := update t.rightChild p q }

def setParent (t : RbTree E) (p q : Ptr) : RbTree E :=
  { t with parent := update t.parent p q }

/-- `_rbNodeSetColor`. -/
def setColor (t : RbTree E) (p : Ptr) (c : Color) : RbTree E :=
  { t with color := update t.color p c }

def setElement (t : RbTree E) (p : Ptr) (e : Option E) : RbTree E :=
  { t with element := update t.element p e }

def setRoot (t : RbTree E) (p : Ptr) : RbTree E := { t with root := p }

def setSize (t : RbTree E) (n : Int) : RbTree E := { t with size := n }

/-- `node` is the left or right child of `par`: put `q` in its place. -/
def replaceChild (t : RbTree E) (par node q : Ptr) : RbTree E :=
  if t.leftChild par = node then t.setChild .left par q else t.setChild .right par q

/-- The test the source repeats wherever a node is replaced under its parent:
the root has no parent to change. -/
def replaceNode (t : RbTree E) (par node q : Ptr) : RbTree E :=
  if t.root = node then t.setRoot q else t.replaceChild par node q

/-- The parent link of a child that exists. -/
def adopt (t : RbTree E) (q par : Ptr) : RbTree E :=
  if q ≠ t.nil then t.setParent q par else t

/-- `_rbNodeRotateLeft` (`s = left`) and `_rbNodeRotateRight` (`s = right`). -/
def rotate (t : RbTree E) (s : Side) (node : Ptr) : RbTree E :=
  let subroot := t.child s.other node
  let t := t.setChild s.other node (t.child s subroot)
  let t := t.adopt (t.child s.other node) node
  let t := t.setParent subroot (t.parent node)
  let t := t.replaceNode (t.parent subroot) node subroot
  let t := t.setChild s subroot node
  t.setParent node subroot

def rbNodeRotateLeft (t : RbTree E) (node : Ptr) : RbTree E := t.rotate .left node

def rbNodeRotateRight (t : RbTree E) (node : Ptr) : RbTree E := t.rotate .right node

/-- `_rbNodeCreate`: an allocated node whose links all point to `nil`. -/
def rbNodeCreate (A : Allocator) (t : RbTree E) (c : Color) : RbTree E × Ptr :=
  let node := A.fresh t.live
  ((((({ t with live := node :: t.live }.setElement node none).setColor node c).setChild
    .left node t.nil).setChild .right node t.nil).setParent node t.nil, node)

/-- `parcMemory_Deallocate` of a node: its address is free, its links and its
element are gone. -/
def deallocate (t : RbTree E) (node : Ptr) : RbTree E :=
  (((({ t with live := t.live.erase node }.setElement node none).setChild .left node
    NULL).setChild .right node NULL).setParent node NULL)

/-! ## Repair after an insertion -/

/-- One turn of the loop of `_rbNodeFix`. -/
def rbNodeFixBody (s : RbTree E × Ptr) : Prog ((RbTree E × Ptr) ⊕ RbTree E) :=
  let (t, node) := s
  if t.color (t.parent node) = .red then
    let grandparent := t.parent (t.parent node)
    let s : Side := if t.leftChild grandparent = t.parent node then .left else .right
    let uncle := t.child s.other grandparent
    if t.color uncle = .red then
      -- My dad and uncle are red. Switch dad to black.
      -- Switch grandpa to red and start there.
      let t := t.setColor (t.parent node) .black
      let t := t.setColor uncle .black
      let t := t.setColor (t.parent (t.parent node)) .red
      pure (.inl (t, t.parent (t.parent node)))
    else
      let (t, node) :=
        if t.child s.other (t.parent node) = node then
          (t.rotate s (t.parent node), t.parent node)
        else (t, node)
      let t := t.setColor (t.parent node) .black
      let t := t.setColor (t.parent (t.parent node)) .red
      pure (.inl (t.rotate s.other (t.parent (t.parent node)), node))
  else
    pure (.inr (t.setColor t.root .black))

/-- `_rbNodeFix`. -/
def rbNodeFix (t : RbTree E) (startNode : Ptr) : Prog (RbTree E) :=
  Exec.loop rbNodeFixBody (t, startNode)

/-! ## Walking the tree -/

/-- `_rbNodeRecursiveRun`: run a function on all nodes of the tree, in order. -/
def rbNodeRecursiveRun (t : RbTree E) (func : Ptr → σ → Prog σ) (node : Ptr) (data : σ) :
    Prog σ := do
  let data ← (if t.leftChild node ≠ t.nil then
      t |>.rbNodeRecursiveRun func (t.leftChild node) data else pure data)
  let data ← func node data
  if t.rightChild node ≠ t.nil then t |>.rbNodeRecursiveRun func (t.rightChild node) data
  else pure data
partial_fixpoint

section
variable (ops : KeyOps E K)

/-- `_rbNodeIsEqual`: false for a node without an element. -/
def rbNodeIsEqual (t : RbTree E) (node : Ptr) (key : K) : Bool :=
  match t.element node with
  | none => false
  | some e => ops.equals (ops.key e) key

/-- `_rbNodeIsGreaterThan`. -/
def rbNodeIsGreaterThan (t : RbTree E) (node : Ptr) (key : K) : Bool :=
  match t.element node with
  | none => false
  | some e => ops.compare (ops.key e) key > 0

/-- `compare` of the keys of two nodes. -/
def compareNodes (t : RbTree E) (p q : Ptr) : Int :=
  match t.element p, t.element q with
  | some e, some e' => ops.compare (ops.key e) (ops.key e')
  | _, _ => 0

/-- `_rbNodeAssertNodeInvariants`. -/
def rbNodeAssertNodeInvariants (t : RbTree E) (node : Ptr) (_ : Unit) : Prog Unit := do
  assertTrue (t.parent node != NULL) "Node has NULL parent"
  assertTrue (t.leftChild node != NULL) "Left child NULL"
  assertTrue (t.rightChild node != NULL) "Richt child NULL"
  assertIf (node ≠ t.root) (t.parent node != t.nil) "Paren't can't be nill for node!"
  forM ops.nullTexts (assertTrue (t.element node).isSome)
  assertIf (t.leftChild node ≠ t.nil) (compareNodes ops t node (t.leftChild node) > 0)
    "Left child not smaller?"
  assertIf (t.rightChild node ≠ t.nil) (compareNodes ops t node (t.rightChild node) < 0)
    "Right child not bigger?"

/-- `_rbNodeAssertTreeInvariants`. -/
def rbNodeAssertTreeInvariants (t : RbTree E) : Prog Unit := do
  assertTrue (t.size ≥ 0) "Tree has negative size"
  if t.size ≠ 0 then
    assertTrue (t.root != t.nil) s!"Tree size = {t.size} > 0 but root is nil"
    assertTrue (t.root != NULL) "Tree size > 0 but root is NULL"
    rbNodeRecursiveRun t (rbNodeAssertNodeInvariants ops t) t.root ()

/-! ## Repair after a deletion -/

/-- A red sibling is turned up, so that `node` gets a black one. -/
def fixRedSibling (t : RbTree E) (s : Side) (node fixNode : Ptr) : RbTree E × Ptr :=
  if t.color fixNode = .red then
    let t := t.setColor fixNode .black
    let t := t.setColor (t.parent node) .red
    let t := t.rotate s (t.parent node)
    (t, t.child s.other (t.parent node))
  else (t, fixNode)

/-- The sibling's red child is brought to the far side. -/
def fixNearChild (t : RbTree E) (s : Side) (node fixNode : Ptr) : RbTree E × Ptr :=
  if t.color (t.child s.other fixNode) = .black then
    let t := t.setColor (t.child s fixNode) .black
    let t := t.setColor fixNode .red
    let t := t.rotate s.other fixNode
    (t, t.child s.other (t.parent node))
  else (t, fixNode)

/-- The rotation that ends the repair. -/
def fixFarChild (t : RbTree E) (s : Side) (node fixNode : Ptr) : RbTree E :=
  let t := t.setColor fixNode (t.color (t.parent node))
  let t := t.setColor (t.parent node) .black
  let t := t.setColor (t.child s.other fixNode) .black
  t.rotate s (t.parent node)

/-- The sibling is black: recolour it and go on at the parent, or rotate and
be done. -/
def fixBlackSibling (t : RbTree E) (s : Side) (node fixNode : Ptr) : RbTree E × Ptr :=
  if t.color (t.leftChild fixNode) = .black ∧ t.color (t.rightChild fixNode) = .black then
    (t.setColor fixNode .red, t.parent node)
  else
    let (t, fixNode) := t.fixNearChild s node fixNode
    let t := t.fixFarChild s node fixNode
    (t, t.root)

/-- One turn of the loop of `_rbNodeFixDelete`. -/
def rbNodeFixDeleteBody (s : RbTree E × Ptr) : Prog ((RbTree E × Ptr) ⊕ RbTree E) := do
  let (t, node) := s
  if node ≠ t.root ∧ t.color node = .black then
    rbNodeAssertTreeInvariants ops t
    let s : Side := if node = t.leftChild (t.parent node) then .left else .right
    let (t, fixNode) := t.fixRedSibling s node (t.child s.other (t.parent node))
    pure (.inl (t.fixBlackSibling s node fixNode))
  else
    pure (.inr (t.setColor node .black))

/-- `_rbNodeFixDelete`. -/
def rbNodeFixDelete (t : RbTree E) (node : Ptr) : Prog (RbTree E) :=
  Exec.loop (rbNodeFixDeleteBody ops) (t, node)

/-! ## Search -/

/-- The loop of `_rbMinRelativeNode` (`s = left`) and `_rbMaxRelativeNode`
(`s = right`): down one side to the end. -/
def relativeNode (t : RbTree E) (s : Side) (startNode : Ptr) : Prog Ptr :=
  Exec.loop (fun searchNode =>
    if t.child s searchNode ≠ t.nil then pure (.inl (t.child s searchNode))
    else pure (.inr searchNode)) startNode

/-- `_rbFindNode`, the search loop of every lookup: `none` is NULL. -/
def rbFindNode (t : RbTree E) (startNode : Ptr) (key : K) : Prog (Option Ptr) :=
  Exec.loop (fun node =>
    if node ≠ t.nil then
      if rbNodeIsEqual ops t node key then pure (.inr (some node))
      else if rbNodeIsGreaterThan ops t node key then pure (.inl (t.leftChild node))
      else pure (.inl (t.rightChild node))
    else pure (.inr none)) startNode

/-! ## Removing a node -/

/-- Unlink a node that has at most one child `q`: `q` moves up. -/
def moveUp (t : RbTree E) (node q : Ptr) : RbTree E :=
  let t := t.replaceNode (t.parent node) node q
  t.setParent q (t.parent node)

/-- Take `successor`, which has no left child, out of its place. -/
def unlinkSuccessor (t : RbTree E) (successor : Ptr) : RbTree E :=
  let right := t.rightChild successor
  let t := t.replaceChild (t.parent successor) successor right
  t.setParent right (t.parent successor)

/-- Put `successor` into the place of `node`, with its children and colour. -/
def substitute (t : RbTree E) (node successor : Ptr) : RbTree E :=
  let t := if t.parent node = t.nil then t.setRoot successor
    else t.replaceChild (t.parent node) node successor
  let t := t.setParent successor (t.parent node)
  let t := t.setChild .left successor (t.leftChild node)
  let t := t.setParent (t.leftChild node) successor
  let t := t.setChild .right successor (t.rightChild node)
  let t := t.setParent (t.rightChild node) successor
  let t := t.setColor successor (t.color node)
  if t.parent successor = t.nil then t.setRoot successor else t

/-- The part of `_rbNodeRemove` that relinks the tree: the tree, the node to
repair from, and the colour that was taken out. -/
def rbNodeUnlink (t : RbTree E) (node : Ptr) : Prog (RbTree E × Ptr × Color) := do
  if t.leftChild node = t.nil then
    if t.rightChild node = t.nil then
      -- We have no children
      pure (t.moveUp node t.nil, t.nil, t.color node)
    else
      -- We only have right child, move up
      pure (t.moveUp node (t.rightChild node), t.rightChild node, t.color node)
  else
    if t.rightChild node = t.nil then
      -- We only have left child, move up
      pure (t.moveUp node (t.leftChild node), t.leftChild node, t.color node)
    else
      -- We have 2 children, move our successor to our location
      let successor ← t.relativeNode .left (t.rightChild node)
      let fixupNode := t.rightChild successor
      pure ((t.unlinkSuccessor successor).substitute node successor, fixupNode, t.color successor)

/-- `_rbNodeRemove`. -/
def rbNodeRemove (t : RbTree E) (node : Ptr) : Prog (RbTree E) := do
  rbNodeAssertTreeInvariants ops t
  let (t, fixupNode, deleteNodeColor) ← t.rbNodeUnlink node
  let t := t.setSize (t.size - 1)
  -- Fix the red-blackness
  rbNodeAssertTreeInvariants ops t
  let t ← (if deleteNodeColor = .black then rbNodeFixDelete ops t fixupNode else pure t)
  rbNodeAssertTreeInvariants ops t
  pure t

/-! ## The public operations, up to what they return -/

/-- The tree both `_Create` functions build: a black `nil` node that points to
itself, and no other. -/
def create (A : Allocator) : RbTree E :=
  let nil := A.fresh []
  { leftChild := fun _ => nil, rightChild := fun _ => nil, parent := fun _ => nil,
    color := fun _ => .black, element := fun _ => none, root := nil, nil, size := 0,
    live := [nil] }

/-- The descent of an insertion: the node with an equal key (`.inl`), or the
node to hang the new one under. -/
def insertionPoint (t : RbTree E) (key : K) : Prog (Ptr ⊕ Ptr) :=
  Exec.loop (fun (node, parent) =>
    if node ≠ t.nil then
      if rbNodeIsEqual ops t node key then pure (.inr (.inl node))
      else if rbNodeIsGreaterThan ops t node key then pure (.inl (t.leftChild node, node))
      else pure (.inl (t.rightChild node, node))
    else pure (.inr (.inr parent))) (t.root, t.nil)

/-- Hang `newNode` under `parent`, on the side its key belongs to. -/
def attach (t : RbTree E) (newNode parent : Ptr) (key : K) : RbTree E :=
  let t := t.setParent newNode parent
  if parent = t.nil then t.setRoot newNode
  else if rbNodeIsGreaterThan ops t parent key then t.setChild .left parent newNode
  else t.setChild .right parent newNode

/-- The new node of an insertion: red, with its element, not yet linked in. -/
def withNode (A : Allocator) (t : RbTree E) (e : E) : RbTree E :=
  let (t, newNode) := t.rbNodeCreate A .red
  t.setElement newNode (some e)

/-- `_rbNodeUpdate`: the new node's element goes to the node with an equal key,
and the new node is freed. -/
def rbNodeUpdate (t : RbTree E) (treeNode newNode : Ptr) : RbTree E :=
  (t.setElement treeNode (t.element newNode)).deallocate newNode

/-- `parcTreeRedBlack_Insert` and `parcTreeMap_Put`. -/
def insert (A : Allocator) (ops : KeyOps E K) (t : RbTree E) (e : E) : Prog (RbTree E) := do
  let newNode := A.fresh t.live
  let t := t.withNode A e
  match ← t.insertionPoint ops (ops.key e) with
  | .inl node => pure (t.rbNodeUpdate node newNode)
  | .inr parent =>
    let t := t.attach ops newNode parent (ops.key e)
    let t := t.setSize (t.size + 1)
    -- We have a correct tree. But we need to regain the red-black property.
    let t ← t.rbNodeFix newNode
    rbNodeAssertTreeInvariants ops t
    pure t

/-- The removals: search, take the node out, and free it. Returns the element
of the node, `none` when the key is absent. -/
def removeKey (t : RbTree E) (key : K) : Prog (RbTree E × Option E) := do
  match ← t.rbFindNode ops t.root key with
  | some node =>
    let t ← t.rbNodeRemove ops node
    let e := t.element node
    let t := t.deallocate node
    rbNodeAssertTreeInvariants ops t
    pure (t, e)
  | none =>
    rbNodeAssertTreeInvariants ops t
    pure (t, none)

/-- The lookups: the element with an equal key, `none` for NULL. -/
def getKey (t : RbTree E) (key : K) : Prog (Option E) := do
  rbNodeAssertTreeInvariants ops t
  match ← t.rbFindNode ops t.root key with
  | some node => pure (t.element node)
  | none => pure none

/-- The first (`s = left`) or last element, `none` for NULL. -/
def extreme (t : RbTree E) (s : Side) : Prog (Option E) := do
  rbNodeAssertTreeInvariants ops t
  if t.size = 0 then pure none
  else
    let node ← t.relativeNode s t.root
    pure (t.element node)

def sizeOf (t : RbTree E) : Prog Int := do
  rbNodeAssertTreeInvariants ops t
  pure t.size

end

/-- The lists of keys, values or elements: each node adds to the list when the
walk comes to it. -/
def collect {β : Type} (ops : KeyOps E K) (t : RbTree E) (f : E → β) : Prog (List β) := do
  rbNodeAssertTreeInvariants ops t
  if t.size > 0 then
    t.rbNodeRecursiveRun (fun node list => do
      let e ← assertNotNull (t.element node) "Not a valid keyValue"
      pure (list ++ [f e])) t.root []
  else pure []

end RbTree
end Libparc.RedBlackNodes
