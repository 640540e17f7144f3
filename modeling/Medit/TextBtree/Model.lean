import Mathlib.Algebra.Group.Nat.Defs
import Mathlib.Algebra.GroupWithZero.Nat
import Mathlib.Algebra.Ring.Int.Defs
import Mathlib.Data.List.Basic
import Mathlib.Logic.Function.Basic

/-!
# The line tree of a text buffer

Translation of `mooedit/mootextbtree.cpp`. Nodes and lines live in memory and refer
to each other by address, as in the source, so every field of `BTNode` and `BTData` is a
function from addresses. `BTNode` and `BTData` begin with the same members
(`parent`, `n_marks`), and the source uses one for the other there; one address
space serves both.

A failed `g_assert`, a null pointer that is followed and an index outside an array
all end a function with `none`. The loops over parents and children take the number of
rounds they are allowed, and also end with `none` past it.

## Main definitions

* `BTree` — the tree and the memory it lives in.
* `BTree.new`, `BTree.insert`, `BTree.delete`, `BTree.getData`, `BTree.updateNMarks`.
-/

namespace Medit

/-- Addresses of `BTNode` and `BTData` cells. -/
abbrev Ptr := Nat

/-- Addresses of `MooLineMark` objects. -/
abbrev MarkPtr := Nat

/-- The part of `MooLineMarkPrivate` that ties a mark to a line. There is one buffer, so
`buffer` and `line_buf` are one flag: whether the mark belongs to it. -/
structure LineMark where
  buffer : Bool
  line : Option Ptr
  lineNo : Int
  stamp : Nat
deriving DecidableEq

/-- `moo_line_mark_init`. -/
def LineMark.init : LineMark := ⟨false, none, -1, 0⟩

/-- `_moo_line_mark_set_line`, its assertion left to the callers. -/
def LineMark.setLine (m : LineMark) (line : Option Ptr) (lineNo : Int) (stamp : Nat) : LineMark :=
  { m with line := line, lineNo := lineNo, stamp := stamp }

/-- `g_assert`. -/
def gAssert (p : Prop) [Decidable p] : Option Unit := if p then some () else none

@[simp] theorem gAssert_true {p : Prop} [Decidable p] (h : p) : gAssert p = some () := if_pos h

/-- `BTREE_NODE_MAX_CAPACITY` -/
def nodeMaxCapacity : Nat := 16

/-- `BTREE_NODE_MIN_CAPACITY` -/
def nodeMinCapacity : Nat := 8

/-- What is stored when `n` is assigned to the bit-field `count`, of `30 - BTREE_NODE_EXP`
bits. -/
def countBits (n : Int) : Nat := (n % 2 ^ 26).toNat

/-- What is stored when `n` is assigned to a `guint`. -/
def guint (n : Int) : Nat := (n % 2 ^ 32).toNat

/-- `(int) n` for a `guint`. -/
def toInt (n : Nat) : Int := if n < 2 ^ 31 then n else n - 2 ^ 32

/-- A `BTree` with the memory of its nodes, lines and marks. `children` are the first
`n_children` entries of the union `u`, nodes or lines as `is_bottom` says. -/
structure BTree where
  root : Ptr
  depth : Nat
  stamp : Nat
  parent : Ptr → Option Ptr
  nMarks : Ptr → Nat
  children : Ptr → List Ptr
  isBottom : Ptr → Bool
  count : Ptr → Nat
  /-- `BTData.marks` -/
  marks : Ptr → List MarkPtr
  mark : MarkPtr → LineMark
  /-- The next unused address. -/
  next : Ptr

namespace BTree

/-! ## Fields of one cell -/

def setParent (t : BTree) (p : Ptr) (q : Option Ptr) : BTree :=
  { t with parent := Function.update t.parent p q }

def setNMarks (t : BTree) (p : Ptr) (n : Int) : BTree :=
  { t with nMarks := Function.update t.nMarks p (guint n) }

def setChildren (t : BTree) (p : Ptr) (cs : List Ptr) : BTree :=
  { t with children := Function.update t.children p cs }

def setCount (t : BTree) (p : Ptr) (n : Int) : BTree :=
  { t with count := Function.update t.count p (countBits n) }

/-- `for (i = 0; ..; ++i) cs[i]->parent = p` -/
def setParents (t : BTree) (cs : List Ptr) (p : Ptr) : BTree :=
  cs.foldl (fun t c => t.setParent c (some p)) t

/-! ## Nodes and lines -/

/-- `bt_node_new`; the children are filled in by the caller. -/
def btNodeNew (t : BTree) (parent : Option Ptr) (isBottom : Bool) (children : List Ptr)
    (count nMarks : Nat) : BTree × Ptr :=
  ({ t with
      parent := Function.update t.parent t.next parent
      nMarks := Function.update t.nMarks t.next nMarks
      children := Function.update t.children t.next children
      isBottom := Function.update t.isBottom t.next isBottom
      count := Function.update t.count t.next (countBits count)
      next := t.next + 1 }, t.next)

/-- `bt_data_new` -/
def btDataNew (t : BTree) (parent : Ptr) : BTree × Ptr :=
  ({ t with
      parent := Function.update t.parent t.next (some parent)
      nMarks := Function.update t.nMarks t.next 0
      marks := Function.update t.marks t.next []
      next := t.next + 1 }, t.next)

/-- The first `n_marks` entries of the array `marks` of a line. -/
def marksOf (t : BTree) (data : Ptr) : List MarkPtr := (t.marks data).take (t.nMarks data)

/-- `bt_data_free` with a list for the removed marks: each mark is put in front of the list
and loses its line. -/
def btDataFree (t : BTree) (data : Ptr) (removed : List MarkPtr) :
    Option (BTree × List MarkPtr) := do
  gAssert (t.nMarks data ≤ (t.marks data).length)
  return (t.marksOf data).foldl
    (fun (s : BTree × List MarkPtr) m =>
      ({ s.1 with mark := Function.update s.1.mark m ((s.1.mark m).setLine none (-1) 0) },
        m :: s.2))
    (t, removed)

/-- `node_get_index`; the source runs past the array when `child` is not there. -/
def nodeGetIndex (t : BTree) (node child : Ptr) : Option Nat := (t.children node).idxOf? child

/-- `node_insert__` -/
def nodeInsert (t : BTree) (node data : Ptr) (index : Nat) : Option BTree := do
  gAssert ((t.children node).length < nodeMaxCapacity)
  gAssert (index ≤ (t.children node).length)
  return t.setChildren node ((t.children node).insertIdx index data)

/-- `node_remove__` -/
def nodeRemove (t : BTree) (node data : Ptr) : Option BTree := do
  gAssert (0 < (t.children node).length)
  let index ← t.nodeGetIndex node data
  return t.setChildren node ((t.children node).eraseIdx index)

/-! ## Creating and searching -/

/-- `_moo_text_btree_new`, over empty memory. -/
def new : BTree where
  root := 0
  depth := 0
  stamp := 1
  parent := Function.update (fun _ => none) 1 (some 0)
  nMarks := fun _ => 0
  children := Function.update (fun _ => []) 0 [1]
  isBottom := Function.update (fun _ => false) 0 true
  count := Function.update (fun _ => 0) 0 1
  marks := fun _ => []
  mark := fun _ => LineMark.init
  next := 2

/-- `_moo_text_btree_size` -/
def size (t : BTree) : Nat := t.count t.root

/-- The `for` loop over the children of a node: skips those that `skip` the index, which loses
their lines. -/
def findChild (t : BTree) (skip : Nat → Nat → Bool) : List Ptr → Nat → Option (Ptr × Nat)
  | [], _ => none
  | c :: cs, index =>
    if skip index (t.count c) then t.findChild skip cs (index - t.count c) else some (c, index)

/-- The `while (!node->is_bottom)` loop: the bottom node and the index in it. -/
def descend (t : BTree) (skip : Nat → Nat → Bool) : Nat → Ptr → Nat → Option (Ptr × Nat)
  | 0, _, _ => none
  | fuel + 1, node, index =>
    if t.isBottom node then some (node, index)
    else do
      let (child, index) ← t.findChild skip (t.children node) index
      t.descend skip fuel child index

/-- `_moo_text_btree_get_data` -/
def getData (t : BTree) (index : Nat) : Option Ptr := do
  gAssert (index < t.count t.root)
  let (node, index) ← t.descend (fun index count => decide (count ≤ index)) (t.depth + 1)
    t.root index
  (t.children node)[index]?

/-! ## Insertion -/

/-- `for (tmp = node; tmp != NULL; tmp = tmp->parent) tmp->count++` -/
def addCounts (t : BTree) : Nat → Option Ptr → Option BTree
  | _, none => some t
  | 0, some _ => none
  | fuel + 1, some node => (t.setCount node (t.count node + 1)).addCounts fuel (t.parent node)

/-- A new root above a full one. -/
def growRoot (t : BTree) (node : Ptr) : BTree :=
  let (t, root) := t.btNodeNew none false [node] (t.count node) (t.nMarks node)
  { t.setParent node (some root) with depth := t.depth + 1, root := root }

/-- `new_count` -/
def upperCount (t : BTree) (node : Ptr) : Nat :=
  if t.isBottom node then nodeMinCapacity
  else (((t.children node).drop nodeMinCapacity).map t.count).sum

/-- `node->n_marks += node->u.children[i]->n_marks` over the children. -/
def sumMarks (t : BTree) (node : Ptr) : BTree :=
  t.setNMarks node ((t.children node).map t.nMarks).sum

/-- The upper half of a full node moves to a new node right of it. -/
def splitChild (t : BTree) (node : Ptr) : Option BTree := do
  let parent ← t.parent node
  let newCount := t.upperCount node
  let nodeIndex ← t.nodeGetIndex parent node
  gAssert (nodeIndex < (t.children parent).length)
  let (t, newNode) := t.btNodeNew (some parent) (t.isBottom node) [] newCount 0
  let t := t.setCount node (t.count node - newCount)
  let t ← t.nodeInsert parent newNode (nodeIndex + 1)
  gAssert (t.nodeGetIndex parent newNode = some (nodeIndex + 1))
  gAssert (t.nodeGetIndex parent node = some nodeIndex)
  let t := t.setChildren newNode ((t.children node).drop nodeMinCapacity)
  let t := t.setChildren node ((t.children node).take nodeMinCapacity)
  let t := t.setParents (t.children newNode) newNode
  if t.nMarks node ≠ 0 then
    return (t.sumMarks node).sumMarks newNode
  else
    return t

/-- One round of `while (node->n_children == BTREE_NODE_MAX_CAPACITY)`. -/
def splitNode (t : BTree) (node : Ptr) : Option BTree :=
  (if t.parent node = none then t.growRoot node else t).splitChild node

/-- The loop that splits full nodes from the bottom up. -/
def splitNodes (t : BTree) : Nat → Ptr → Option BTree
  | 0, _ => none
  | fuel + 1, node =>
    if (t.children node).length = nodeMaxCapacity then do
      let t ← t.splitNode node
      let parent ← t.parent node
      t.splitNodes fuel parent
    else some t

/-- `_moo_text_btree_insert` -/
def insert (t : BTree) (index : Nat) : Option (BTree × Ptr) := do
  gAssert (index ≤ t.count t.root)
  let t := { t with stamp := guint (t.stamp + 1) }
  let (node, i) ← t.descend (fun index count => decide (count < index)) (t.depth + 1) t.root index
  gAssert ((t.children node).length < nodeMaxCapacity)
  gAssert (i ≤ (t.children node).length)
  let (t, data) := t.btDataNew node
  let t ← t.nodeInsert node data i
  let t ← t.addCounts (t.depth + 1) (some node)
  let t ← t.splitNodes (t.depth + 2) node
  gAssert (t.getData index = some data)
  return (t, data)

/-! ## Deletion -/

/-- `merge_nodes` -/
def mergeNodes (t : BTree) (parent : Ptr) (first : Nat) : Option BTree := do
  gAssert (first + 1 < (t.children parent).length)
  let node ← (t.children parent)[first]?
  let next ← (t.children parent)[first + 1]?
  gAssert ((t.children node).length + (t.children next).length < nodeMaxCapacity)
  let t := t.setChildren node (t.children node ++ t.children next)
  let t := t.setParents (t.children next) node
  let t := t.setCount node (t.count node + t.count next)
  let t := t.setNMarks node (t.nMarks node + t.nMarks next)
  t.nodeRemove parent next

/-- `for (tmp = node; tmp != NULL; tmp = tmp->parent)` of `_moo_text_btree_delete`. -/
def dropCounts (t : BTree) (data : Ptr) : Nat → Option Ptr → Option BTree
  | _, none => some t
  | 0, some _ => none
  | fuel + 1, some node => do
    let t := t.setCount node (t.count node - 1)
    gAssert (t.nMarks data ≤ t.nMarks node)
    let t := t.setNMarks node (t.nMarks node - t.nMarks data)
    t.dropCounts data fuel (t.parent node)

/-- Moves `child` from `sib` to `node`, at `index` there. -/
def borrowChild (t : BTree) (node sib child : Ptr) (index : Nat) : Option BTree := do
  let t ← t.nodeInsert node child index
  let t ← t.nodeRemove sib child
  let t := t.setParent child (some node)
  let t := t.setNMarks node (t.nMarks node + t.nMarks child)
  let t := t.setNMarks sib (t.nMarks sib - t.nMarks child)
  if t.isBottom node then
    return (t.setCount node (t.count node + 1)).setCount sib (t.count sib - 1)
  else
    return (t.setCount node (t.count node + t.count child)).setCount sib
      (t.count sib - t.count child)

/-- The branch of the loop below for a node that is not the first child. -/
def refillFromLeft (t : BTree) (parent node : Ptr) (nodeIndex : Nat) : Option BTree := do
  let sib ← (t.children parent)[nodeIndex - 1]?
  if nodeMinCapacity < (t.children sib).length then do
    let child ← (t.children sib)[(t.children sib).length - 1]?
    t.borrowChild node sib child 0
  else t.mergeNodes parent (nodeIndex - 1)

/-- The branch for the first child. -/
def refillFromRight (t : BTree) (parent node : Ptr) : Option BTree := do
  let sib ← (t.children parent)[1]?
  if nodeMinCapacity < (t.children sib).length then do
    let child ← (t.children sib)[0]?
    let t ← t.borrowChild node sib child (t.children node).length
    gAssert ((t.children node).length = nodeMinCapacity)
    return t
  else t.mergeNodes parent 0

/-- `tree->depth--` with `node` as the new root. -/
def shrinkRoot (t : BTree) (node : Ptr) : BTree :=
  { t.setParent node none with depth := t.depth - 1, root := node }

/-- `while (node->n_children < BTREE_NODE_MIN_CAPACITY)` -/
def refillNodes (t : BTree) : Nat → Ptr → Option BTree
  | 0, _ => none
  | fuel + 1, node =>
    if (t.children node).length < nodeMinCapacity then
      match t.parent node with
      | none =>
        if 1 < (t.children node).length ∨ t.isBottom node then some t
        else do
          let child ← (t.children node)[0]?
          return t.shrinkRoot child
      | some parent =>
        if (t.children parent).length = 1 then do
          gAssert (t.parent parent = none)
          return t.shrinkRoot node
        else do
          let nodeIndex ← t.nodeGetIndex parent node
          let t ← if nodeIndex ≠ 0 then t.refillFromLeft parent node nodeIndex
            else t.refillFromRight parent node
          t.refillNodes fuel parent
    else some t

/-- `_moo_text_btree_delete` -/
def delete (t : BTree) (index : Nat) (deletedMarks : List MarkPtr) :
    Option (BTree × List MarkPtr) := do
  gAssert (1 < t.count t.root)
  gAssert (index < t.count t.root)
  let t := { t with stamp := guint (t.stamp + 1) }
  let data ← t.getData index
  let node ← t.parent data
  gAssert (t.count node = (t.children node).length)
  let t ← t.nodeRemove node data
  let t ← t.dropCounts data (t.depth + 1) (some node)
  let (t, deletedMarks) ← t.btDataFree data deletedMarks
  let t ← t.refillNodes (t.depth + 2) node
  return (t, deletedMarks)

/-! ## Ranges and mark counts -/

/-- `_moo_text_btree_insert_range`; the line numbers are `int`s. -/
def insertRange (t : BTree) (first num : Int) : Option BTree := do
  gAssert (0 ≤ first ∧ first ≤ toInt (t.count t.root))
  gAssert (0 < num)
  (List.range num.toNat).foldlM (fun t _ => (t.insert first.toNat).map Prod.fst) t

/-- `_moo_text_btree_delete_range` -/
def deleteRange (t : BTree) (first num : Int) (deletedMarks : List MarkPtr) :
    Option (BTree × List MarkPtr) := do
  gAssert (0 ≤ first ∧ first < toInt (t.count t.root))
  gAssert (0 < num ∧ first + num ≤ toInt (t.count t.root))
  (List.range num.toNat).foldlM (fun s _ => s.1.delete first.toNat s.2) (t, deletedMarks)

/-- The loop of `_moo_text_btree_update_n_marks`, which goes up from the line itself. -/
def addMarks (t : BTree) (add : Int) : Nat → Option Ptr → Option BTree
  | _, none => some t
  | 0, some _ => none
  | fuel + 1, some node => do
    gAssert (0 < add ∨ add < 0 ∧ -add ≤ toInt (t.nMarks node))
    (t.setNMarks node (t.nMarks node + add)).addMarks add fuel (t.parent node)

/-- `_moo_text_btree_update_n_marks` -/
def updateNMarks (t : BTree) (data : Ptr) (add : Int) : Option BTree :=
  t.addMarks add (t.depth + 2) (some data)

end BTree

end Medit
