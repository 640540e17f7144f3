import Mathlib.Algebra.Group.Nat.Defs
import Mathlib.Algebra.GroupWithZero.Nat
import Mathlib.Algebra.Ring.Int.Defs
import Mathlib.Data.Int.Notation
import Mathlib.Data.List.Basic

/-!
# The folds of a text buffer

Translation of `mooedit/moofold.cpp`. The folds live in memory and refer to each other by
address. The text does not change while these functions run, and a fold is modelled with the
lines its two marks are on.

An iterator is always at the start of a line or at the end of the text here, and is given by a line
number; the tag `MOO_FOLD_TAG` is on characters. The loops take the number of rounds they
are allowed, and end with `none` past it.

## Main definitions

* `FoldBuffer` — what the folds use of the text buffer: its lines and the tag.
* `FoldTree` — the tree with the memory of its folds.
* `FoldTree.add`, `FoldTree.remove`, `FoldTree.expand`, `FoldTree.collapse`,
  `FoldTree.expandAll`, `FoldTree.collapseAll`, `FoldTree.toggle`, `FoldTree.markDeleted`.
-/

namespace Medit

/-- Addresses of `MooFold` objects. -/
abbrev FoldPtr := ℕ

/-- The text buffer: the number of characters of each line, with its line end, and for each
character whether it carries `MOO_FOLD_TAG`, if there is such a tag in the tag table. -/
structure FoldBuffer where
  lines : List ℕ
  tag : Option (ℕ → Bool)

namespace FoldBuffer

/-- `gtk_text_buffer_get_line_count` -/
def lineCount (b : FoldBuffer) : ℤ := b.lines.length

/-- The offset of the start of a line. -/
def lineOffset (b : FoldBuffer) (line : ℤ) : ℕ := (b.lines.take line.toNat).sum

/-- The characters from the start of one line to the start of another. GTK puts the two
iterators in order. -/
def between (b : FoldBuffer) (start stop : ℤ) (i : ℕ) : Bool :=
  b.lineOffset (min start stop) ≤ i && i < b.lineOffset (max start stop)

/-- `gtk_text_buffer_apply_tag_by_name` -/
def applyTag (b : FoldBuffer) (start stop : ℤ) : FoldBuffer :=
  { b with tag := b.tag.map fun tag i => tag i || b.between start stop i }

/-- `gtk_text_buffer_remove_tag_by_name` -/
def removeTag (b : FoldBuffer) (start stop : ℤ) : FoldBuffer :=
  { b with tag := b.tag.map fun tag i => tag i && !b.between start stop i }

/-- The line `moo_text_buffer_add_line_mark` puts a mark on. -/
def markLine (b : FoldBuffer) (line : ℤ) : ℤ :=
  if line < 0 ∨ line ≥ b.lineCount then 0 else line

end FoldBuffer

/-- `MooFoldTree` with the memory of its folds: each member of `MooFold` is a function of the
address. The marks `start` and `end` are the lines they are on. Folds from `fresh` on are not
in use. -/
structure FoldTree where
  folds : Option FoldPtr
  nFolds : ℕ
  parent : FoldPtr → Option FoldPtr
  prev : FoldPtr → Option FoldPtr
  next : FoldPtr → Option FoldPtr
  children : FoldPtr → Option FoldPtr
  nChildren : FoldPtr → ℕ
  start : FoldPtr → ℤ
  /-- `end` -/
  stop : FoldPtr → ℤ
  collapsed : FoldPtr → Bool
  deleted : FoldPtr → Bool
  fresh : FoldPtr
  buffer : FoldBuffer

/-- An assignment to a member of the fold `p`; there is none if `p` is `NULL`. -/
def assign {α : Type} (member : FoldPtr → α) (p : Option FoldPtr) (v : α) (x : FoldPtr) : α :=
  if p = some x then v else member x

namespace FoldTree

/-- `_moo_fold_tree_new` -/
def new (buffer : FoldBuffer) : FoldTree where
  folds := none
  nFolds := 0
  parent _ := none
  prev _ := none
  next _ := none
  children _ := none
  nChildren _ := 0
  start _ := 0
  stop _ := 0
  collapsed _ := false
  deleted _ := true
  fresh := 0
  buffer := buffer

/-- The number of rounds loops are allowed. -/
def rounds (t : FoldTree) : ℕ := 2 * t.fresh + 2

/-- `_moo_fold_get_start` -/
def getStart (t : FoldTree) (fold : FoldPtr) : ℤ := if t.deleted fold then -1 else t.start fold

/-- `_moo_fold_get_end` -/
def getEnd (t : FoldTree) (fold : FoldPtr) : ℤ := if t.deleted fold then -1 else t.stop fold

/-- `g_object_new (MOO_TYPE_FOLD)` at the address `t.fresh`, with zeroed members and
`deleted = FALSE`, and its two marks. -/
def alloc (t : FoldTree) (firstLine lastLine : ℤ) : FoldTree :=
  { t with
    parent := assign t.parent (some t.fresh) none
    prev := assign t.prev (some t.fresh) none
    next := assign t.next (some t.fresh) none
    children := assign t.children (some t.fresh) none
    nChildren := assign t.nChildren (some t.fresh) 0
    start := assign t.start (some t.fresh) (t.buffer.markLine firstLine)
    stop := assign t.stop (some t.fresh) (t.buffer.markLine lastLine)
    collapsed := assign t.collapsed (some t.fresh) false
    deleted := assign t.deleted (some t.fresh) false
    fresh := t.fresh + 1 }

/-- The first fold of the list below `parent`. -/
def first (t : FoldTree) (parent : Option FoldPtr) : Option FoldPtr :=
  match parent with
  | some p => t.children p
  | none => t.folds

/-- The assignment to the first fold of the list below `parent`, when `cond` holds. -/
def setFirst (t : FoldTree) (parent : Option FoldPtr) (cond : Prop) [Decidable cond]
    (v : Option FoldPtr) : FoldTree :=
  { t with
    children := assign t.children parent (if cond then v else t.first parent)
    folds := if parent = none ∧ cond then v else t.folds }

/-- The assignment to the number of folds in the list below `parent`. -/
def setCount (t : FoldTree) (parent : Option FoldPtr) (change : ℕ → ℕ) : FoldTree :=
  { t with
    nChildren := fun x => if parent = some x then change (t.nChildren x) else t.nChildren x
    nFolds := if parent = none then change t.nFolds else t.nFolds }

/-- The end of `insert_fold` where "old fold is inserted into the new one". -/
def insertAround (t : FoldTree) (parent : Option FoldPtr) (fold : FoldPtr)
    (firstLine lastLine : ℤ) : FoldTree :=
  let newFold := t.fresh
  let t := t.alloc firstLine lastLine
  let t := t.setFirst parent (t.first parent = none ∨ some fold = t.first parent) (some newFold)
  let t := { t with parent := assign t.parent (some newFold) parent }
  let t := { t with parent := assign t.parent (some fold) (some newFold) }
  let t := { t with children := assign t.children (some newFold) (some fold)
                    nChildren := assign t.nChildren (some newFold) 1 }
  -- `newFold->next` and `newFold->prev` are `NULL` before, so that nothing is lost when the
  -- pointers of `fold` are
  let t := { t with prev := assign t.prev (t.next fold) (some newFold) }
  let t := { t with next := assign t.next (some newFold) (t.next fold) }
  let t := { t with next := assign t.next (some fold) none }
  let t := { t with next := assign t.next (t.prev fold) (some newFold) }
  let t := { t with prev := assign t.prev (some newFold) (t.prev fold) }
  { t with prev := assign t.prev (some fold) none }

/-- The end of `insert_fold` that puts the "new fold before `fold` or in the end if `fold` is
`NULL`". -/
def insertBefore (t : FoldTree) (parent fold last : Option FoldPtr) (firstLine lastLine : ℤ) :
    FoldTree :=
  let newFold := t.fresh
  let t := t.alloc firstLine lastLine
  let t := { t with parent := assign t.parent (some newFold) parent
                    next := assign t.next (some newFold) fold }
  let t := t.setFirst parent (fold = t.first parent) (some newFold)
  let t := t.setCount parent (· + 1)
  match fold, last with
  | some fold, _ =>
    -- `fold->prev->next` stays as it is
    let t := { t with prev := assign t.prev (some newFold) (t.prev fold) }
    { t with prev := assign t.prev (some fold) (some newFold) }
  | none, some last =>
    let t := { t with next := assign t.next (some last) (some newFold) }
    { t with prev := assign t.prev (some newFold) (some last) }
  | none, none => t

/-- `insert_fold` at the fold `fold` of the list below `parent`: the tree and the new fold, or
`NULL` for it. -/
def insertFold (t : FoldTree) (firstLine lastLine : ℤ) :
    ℕ → Option FoldPtr → Option FoldPtr → Option FoldPtr → Option (FoldTree × Option FoldPtr)
  | 0, _, _, _ => none
  | _ + 1, parent, last, none =>
    some (t.insertBefore parent none last firstLine lastLine, some t.fresh)
  | n + 1, parent, last, some fold =>
    let start := t.getStart fold
    let stop := t.getEnd fold
    let last := if t.next fold = none then some fold else last
    if stop < firstLine then
      insertFold t firstLine lastLine n parent last (t.next fold)
    else if start > lastLine then
      some (t.insertBefore parent (some fold) last firstLine lastLine, some t.fresh)
    else if start = firstLine ∨ stop = firstLine ∨ start = lastLine then
      some (t, none)
    else if start < firstLine then
      if stop < lastLine then some (t, none)
      else insertFold t firstLine lastLine n (some fold) none (t.children fold)
    else if stop > lastLine then
      some (t, none)
    else
      some (t.insertAround parent fold firstLine lastLine, some t.fresh)

/-- `_moo_fold_tree_add`, its assertions on the lines left to the callers. -/
def add (t : FoldTree) (firstLine lastLine : ℤ) : Option (FoldTree × Option FoldPtr) :=
  t.insertFold firstLine lastLine t.rounds none none t.folds

/-- The first line after the previous child, or after the start of `fold`. -/
def startLine (t : FoldTree) (fold child : FoldPtr) : ℤ :=
  match t.prev child with
  | some prev => t.getEnd prev + 1
  | none => t.getStart fold + 1

mutual

/-- `expand_check_visible`. -/
def expandCheckVisible (t : FoldTree) : ℕ → FoldPtr → FoldBuffer → Option FoldBuffer
  | 0, _, _ => none
  | n + 1, fold, buffer =>
    let start := t.getStart fold
    let buffer := buffer.removeTag start (start + 1)
    if t.collapsed fold then some buffer
    else match t.children fold with
      | some child => expandChildren t n fold child buffer
      | none => some (buffer.removeTag (start + 1) (t.getEnd fold + 1))

/-- The loop of `expand_check_visible` over the children, and what comes after it. -/
def expandChildren (t : FoldTree) : ℕ → FoldPtr → FoldPtr → FoldBuffer → Option FoldBuffer
  | 0, _, _, _ => none
  | n + 1, fold, child, buffer =>
    let buffer := buffer.removeTag (t.startLine fold child) (t.getStart child + 1)
    match expandCheckVisible t n child buffer with
    | none => none
    | some buffer =>
      match t.next child with
      | some next => expandChildren t n fold next buffer
      | none =>
        if t.getEnd child < t.getEnd fold
        then some (buffer.removeTag (t.getEnd child + 1) (t.getEnd fold + 1))
        else some buffer

end

/-- An assignment to `collapsed`. -/
def setCollapsed (t : FoldTree) (fold : FoldPtr) (collapsed : Bool) : FoldTree :=
  { t with collapsed := assign t.collapsed (some fold) collapsed }

/-- `_moo_fold_tree_expand` -/
def expand (t : FoldTree) (fold : FoldPtr) : Option FoldTree :=
  if t.collapsed fold then
    let t := t.setCollapsed fold false
    (t.expandCheckVisible t.rounds fold t.buffer).map fun buffer => { t with buffer := buffer }
  else some t

/-- `_moo_fold_tree_collapse` -/
def collapse (t : FoldTree) (fold : FoldPtr) : FoldTree :=
  if t.collapsed fold then t
  else
    let t := t.setCollapsed fold true
    { t with buffer := t.buffer.applyTag (t.getStart fold + 1) (t.getEnd fold + 1) }

/-- The loop of `_moo_fold_tree_remove` over the children of `fold`, from `last` on: the tree and
the last child. It also ends with `none` when its assertion fails. -/
def reparent (t : FoldTree) (fold : FoldPtr) : ℕ → FoldPtr → Option (FoldTree × FoldPtr)
  | 0, _ => none
  | n + 1, last =>
    if t.parent last = some fold then
      let t := { t with parent := assign t.parent (some last) (t.parent fold) }
      match t.next last with
      | some next => reparent t fold n next
      | none => some (t, last)
    else none

/-- `_moo_fold_tree_remove` after the loop, with `fold_free`. -/
def unlink (t : FoldTree) (fold : FoldPtr) (children last : Option FoldPtr) (nChildren : ℕ)
    (parent : Option FoldPtr) : FoldTree :=
  let t := t.setFirst parent (some fold = t.first parent)
    (if children.isSome then children else t.next fold)
  let t := t.setCount parent fun n => n + nChildren - 1
  let t := { t with next := assign t.next last (t.next fold) }
  let t := { t with
    prev := assign t.prev (t.next fold) (if last.isSome then last else t.prev fold) }
  let t := { t with prev := assign t.prev children (t.prev fold) }
  let t := { t with
    next := assign t.next (t.prev fold) (if children.isSome then children else t.next fold) }
  { t with deleted := assign t.deleted (some fold) true }

/-- `_moo_fold_tree_remove` after the call of `_moo_fold_tree_expand`. -/
def detach (t : FoldTree) (fold : FoldPtr) : Option FoldTree :=
  let nChildren := t.nChildren fold
  let children := t.children fold
  let parent := t.parent fold
  match children with
  | some child => (t.reparent fold t.rounds child).map fun (t, last) =>
      t.unlink fold children (some last) nChildren parent
  | none => some (t.unlink fold none none nChildren parent)

/-- `_moo_fold_tree_remove` -/
def remove (t : FoldTree) (fold : FoldPtr) : Option FoldTree :=
  match t.expand fold with
  | some t => t.detach fold
  | none => none

/-- What `MOO_FOLD_FOREACH_END` does at a fold without children and next sibling. -/
def foreachUp (t : FoldTree) : ℕ → FoldPtr → Option (Option FoldPtr)
  | 0, _ => none
  | n + 1, iter =>
    match t.parent iter with
    | none => some none
    | some parent =>
      match t.next parent with
      | some next => some (some next)
      | none => foreachUp t n parent

/-- The folds the body between `MOO_FOLD_FOREACH_BEGIN` and `MOO_FOLD_FOREACH_END` is
executed for, in order. It changes no pointers. -/
def foreach (t : FoldTree) : ℕ → Option FoldPtr → Option (List FoldPtr)
  | _, none => some []
  | 0, some _ => none
  | n + 1, some iter =>
    match t.children iter, t.next iter with
    | some child, _ => (foreach t n (some child)).map (iter :: ·)
    | none, some next => (foreach t n (some next)).map (iter :: ·)
    | none, none =>
      match t.foreachUp t.rounds iter with
      | some up => (foreach t n up).map (iter :: ·)
      | none => none

/-- `_moo_fold_tree_expand_all`, and what it returns. -/
def expandAll (t : FoldTree) : Option (FoldTree × Bool) :=
  (t.foreach t.rounds t.folds).map fun folds =>
    let (t, foldFirst) := folds.foldl (fun (t, foldFirst) fold =>
      if !t.deleted fold && t.collapsed fold
      then (t.setCollapsed fold false, foldFirst.or (some fold))
      else (t, foldFirst)) (t, (none : Option FoldPtr))
    match foldFirst with
    | some fold =>
      ({ t with buffer := t.buffer.removeTag (t.getStart fold) t.buffer.lineCount }, true)
    | none => (t, false)

/-- The loop of `_moo_fold_tree_collapse_all`. -/
def collapseFrom (t : FoldTree) : ℕ → Option FoldPtr → Bool → Option (FoldTree × Bool)
  | _, none, ret => some (t, ret)
  | 0, some _, _ => none
  | n + 1, some fold, ret =>
    let ret := if t.collapsed fold then ret else true
    let t := t.collapse fold
    collapseFrom t n (t.next fold) ret

/-- `_moo_fold_tree_collapse_all`, and what it returns. -/
def collapseAll (t : FoldTree) : Option (FoldTree × Bool) := t.collapseFrom t.rounds t.folds false

/-- The body of the loop of `_moo_fold_tree_mark_deleted`. -/
def repaint (t : FoldTree) (other : FoldPtr) : FoldTree :=
  if !t.deleted other && t.collapsed other then (t.setCollapsed other false).collapse other else t

/-- `_moo_fold_tree_mark_deleted` for a mark of `fold`. -/
def markDeleted (t : FoldTree) (fold : FoldPtr) : Option FoldTree :=
  if t.deleted fold then some t
  else
    match (t.setCollapsed fold false).remove fold with
    | none => none
    | some t =>
      if t.buffer.tag.isNone then some t
      else
        let t := { t with buffer := t.buffer.removeTag 0 t.buffer.lineCount }
        (t.foreach t.rounds t.folds).map fun folds => folds.foldl repaint t

/-- `_moo_fold_tree_toggle`, and what it returns. -/
def toggle (t : FoldTree) : Option (FoldTree × Bool) :=
  match t.foreach t.rounds t.folds with
  | none => none
  | some folds =>
    let seenCollapsed := folds.any fun p => !t.deleted p && t.collapsed p
    let seenExpanded := folds.any fun p => !t.deleted p && !t.collapsed p
    if seenCollapsed then t.expandAll.map fun r => (r.1, true)
    else if seenExpanded then t.collapseAll.map fun r => (r.1, true)
    else some (t, false)

end FoldTree

end Medit
