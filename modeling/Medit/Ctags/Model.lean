import Mathlib.Data.Int.Notation
import Mathlib.Data.Multiset.Basic
import Mathlib.Logic.Function.Basic
import Medit.Library.FirstSeen
import Medit.Library.StringEq

/-!
# The tree of tags

Translation of `process_list_simple` in `plugins/ctags/ctags-doc.c`. An iterator of a top-level row
is its number, which stays the same until rows are removed at the end.

## Main definitions

* `MooCtagsEntry`, `TopRow` — tags, and rows with what is below them.
* `processListSimple` — `process_list_simple`.
* `TreeRight` — the tree that there should be, whatever the order of the tags.
* `Unambiguous` — the tags say the same about every container.
-/

namespace Medit.Ctags

/-- `MooCtagsEntry`, without its references. -/
structure MooCtagsEntry where
  name : List Char
  kind : List Char
  line : ℤ
  klass : Option (List Char)
  signature : Option (List Char)
  fileScope : Bool
deriving DecidableEq

/-- `MooCtagsGroup` -/
inductive MooCtagsGroup
  | funcs | macros | types | vars | other
deriving DecidableEq

/-- The groups in their order. -/
def groups : List MooCtagsGroup := [.funcs, .macros, .types, .vars, .other]

/-- What a top-level row is for, which its label says. -/
inductive Heading
  | group (group : MooCtagsGroup)
  | container (type name : List Char)
deriving DecidableEq

/-- `group_labels` -/
def groupLabel : MooCtagsGroup → String
  | .funcs => "<b>Functions</b>"
  | .macros => "<b>Macros</b>"
  | .types => "<b>Types</b>"
  | .vars => "<b>Variables</b>"
  | .other => "<b>Other</b>"

/-- The label of a row. -/
def Heading.label : Heading → List Char
  | group g => (groupLabel g).toList
  | container type name => "<b>".toList ++ type ++ "</b> ".toList ++ name

/-- A top-level row, with its tag and the tags of the rows below it. -/
structure TopRow where
  heading : Heading
  entry : Option MooCtagsEntry
  children : List MooCtagsEntry
deriving DecidableEq

/-- The variables of `process_list_simple`. -/
structure CtagsTree where
  store : List TopRow
  classes : List Char → Option ℕ
  groupUsed : MooCtagsGroup → Bool

/-- `gtk_tree_store_append` on top, with a label. -/
def CtagsTree.appendTop (w : CtagsTree) (heading : Heading) : CtagsTree :=
  { w with store := w.store ++ [⟨heading, none, []⟩] }

/-- `gtk_tree_store_append` below a row, with the tag of the new row. -/
def CtagsTree.appendBelow (w : CtagsTree) (parent : ℕ) (entry : MooCtagsEntry) : CtagsTree :=
  { w with store := w.store.modify parent fun row =>
      { row with children := row.children ++ [entry] } }

/-- `gtk_tree_store_set` of the tag of a top-level row. -/
def CtagsTree.setEntry (w : CtagsTree) (iter : ℕ) (entry : MooCtagsEntry) : CtagsTree :=
  { w with store := w.store.modify iter fun row => { row with entry := some entry } }

/-- `get_iter_for_class` -/
def CtagsTree.getIterForClass (w : CtagsTree) (type name : List Char) : CtagsTree × ℕ :=
  match w.classes name with
  | some stored => (w, stored)
  | none =>
    ({ w.appendTop (.container type name) with
        classes := Function.update w.classes name (some w.store.length) }, w.store.length)

/-- `_moo_ctags_group_for_kind` -/
def groupForKind (kind : List Char) : MooCtagsGroup :=
  if kind = ['f'] then .funcs
  else if kind = ['d'] then .macros
  else if kind = ['v'] then .vars
  else if kind = ['t'] ∨ kind = ['g'] then .types
  else .other

/-- The word for the kind of a tag in `process_class_entry`. -/
def typeOf (entry : MooCtagsEntry) : List Char :=
  if entry.kind = ['c'] then "class".toList
  else if entry.kind = ['g'] ∨ entry.kind = ['e'] then "enum".toList
  else if entry.kind = ['s'] ∨ entry.kind = ['m'] then "struct".toList
  else entry.kind

/-- Whether `process_class_entry` makes a row for a tag below the row of its container. -/
def hangs (entry : MooCtagsEntry) : Bool :=
  entry.klass.isSome || entry.kind == ['m'] || entry.kind == ['e']

/-- `process_class_entry` -/
def CtagsTree.processClassEntry (w : CtagsTree) (entry : MooCtagsEntry) : CtagsTree :=
  let (w, parentIter) := w.getIterForClass (typeOf entry) (entry.klass.getD entry.name)
  if hangs entry then w.appendBelow parentIter entry else w.setEntry parentIter entry

/-- The kinds that name a container. -/
def containerKinds : List (List Char) := [['c'], ['s'], ['m'], ['g'], ['e']]

/-- A round of the loop of `process_list_simple`. -/
def CtagsTree.processEntry (w : CtagsTree) (entry : MooCtagsEntry) : CtagsTree :=
  if entry.klass.isSome ∨ entry.kind ∈ containerKinds then w.processClassEntry entry
  else
    let group := groupForKind entry.kind
    { w.appendBelow (groups.idxOf group) entry with
      groupUsed := Function.update w.groupUsed group true }

/-- The tree with the groups, and nothing in them. -/
def CtagsTree.start : CtagsTree :=
  groups.foldl (fun w group => w.appendTop (.group group)) ⟨[], fun _ => none, fun _ => false⟩

/-- `process_list_simple` -/
def processListSimple (entries : List MooCtagsEntry) : List TopRow :=
  let w := entries.foldl CtagsTree.processEntry .start
  w.store.filter fun row =>
    match row.heading with
    | .group group => w.groupUsed group
    | .container _ _ => true

/-! ## The tree that there should be -/

/-- The tags on the rows of a tree. -/
def tags (tree : List TopRow) : List MooCtagsEntry :=
  tree.flatMap fun row => row.entry.toList ++ row.children

/-- The rows of a tree, up to the order of siblings. -/
def shape (tree : List TopRow) :
    Multiset (Heading × Option MooCtagsEntry × Multiset MooCtagsEntry) :=
  ↑(tree.map fun row => (row.heading, row.entry, (row.children : Multiset MooCtagsEntry)))

/-- Every tag is on one row of the tree: below the row of its container, on a row of its own if it
is a container, or in the group of its kind. No group is empty, and the order of the tags does not
matter but for the order of siblings. -/
structure TreeRight (entries : List MooCtagsEntry) : Prop where
  once : (tags (processListSimple entries)).Perm entries
  member : ∀ entry ∈ entries, ∀ name, entry.klass = some name →
    ∃ row ∈ processListSimple entries, ∃ type, row.heading = .container type name ∧
      entry ∈ row.children
  own : ∀ entry ∈ entries, entry.klass = none → entry.kind ∈ containerKinds →
    ∃ row ∈ processListSimple entries, ∃ type, row.heading = .container type entry.name ∧
      row.entry = some entry
  grouped : ∀ entry ∈ entries, entry.klass = none → entry.kind ∉ containerKinds →
    ∃ row ∈ processListSimple entries, row.heading = .group (groupForKind entry.kind) ∧
      entry ∈ row.children
  nonempty : ∀ row ∈ processListSimple entries, ∀ group, row.heading = .group group →
    row.children ≠ []
  order : ∀ entries' : List MooCtagsEntry, entries'.Perm entries →
    shape (processListSimple entries') = shape (processListSimple entries)

/-- The container that a tag belongs to or is. -/
def rowName (entry : MooCtagsEntry) : Option (List Char) :=
  if entry.klass.isSome ∨ entry.kind ∈ containerKinds then some (entry.klass.getD entry.name)
  else none

/-- Whether a tag is that of a container itself. -/
def IsOwn (entry : MooCtagsEntry) : Prop := entry.klass = none ∧ entry.kind ∈ containerKinds

instance : DecidablePred IsOwn := fun entry =>
  inferInstanceAs (Decidable (entry.klass = none ∧ entry.kind ∈ containerKinds))

/-- The tags say the same about every container: no tag of a member or enumerator comes without
one, no two containers have one name, and all tags of a container have the same word for it. -/
structure Unambiguous (entries : List MooCtagsEntry) : Prop where
  members : ∀ entry ∈ entries, entry.klass = none → entry.kind ≠ ['m'] ∧ entry.kind ≠ ['e']
  distinct : ((entries.filter IsOwn).map (·.name)).Nodup
  types : ∀ entry ∈ entries, ∀ entry' ∈ entries, ∀ name, rowName entry = some name →
    rowName entry' = some name → typeOf entry = typeOf entry'

end Medit.Ctags
