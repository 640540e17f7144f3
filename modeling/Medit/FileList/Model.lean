import Medit.Library.ForestPlaces
import Mathlib.Data.List.Basic
import Mathlib.Logic.Function.Basic

/-!
# The list of files

The rows of the file list are a tree: user rows, which are files with a URI and groups, then a
separator, then a row for each open document without a user row. A file row may hold a document, and
a document has a reference to its row, which is good as long as the row is in the tree.

A `DEBUG_ASSERT` that fails ends the program; the functions give nothing then.

## Main definitions

* `FileList` — the rows, the items, the documents and their references.
* `FileList.update` — `file_list_update`.
* `FileList.moveRow`, `FileList.dropTreeModelRow` — `move_row` and `drop_tree_model_row`.
* `FileList.step` — the calls.
-/

namespace Medit.FileListPlugin

open LinkedForest

abbrev Doc := ℕ

/-- `File`, with its URI and its document, and `Group`. -/
inductive Item where
  | file (uri : Option String) (doc : Option Doc)
  | group (name : String)
deriving DecidableEq

/-- The list: the rows with what is in `COLUMN_ITEM`, of which the separator has nothing, the items,
`n_user_items`, `docs`, the references of the documents to their rows, and the URIs of the
documents. -/
structure FileList where
  rows : Forest ℕ
  item : ℕ → Option ℕ
  items : ℕ → Item
  nUserItems : ℕ
  docs : List Doc
  docRow : Doc → Option ℕ
  uri : Doc → Option String
  nextRow : ℕ
  nextItem : ℕ

namespace FileList

/-! ## Rows -/

/-- `get_item_at_iter` -/
def itemAt (st : FileList) (row : ℕ) : Option Item := (st.item row).map st.items

/-- `file_list_iter_is_auto` -/
def isAuto (st : FileList) (row : ℕ) : Bool := row ∈ st.rows.tops.drop st.nUserItems

def isGroup (st : FileList) (row : ℕ) : Bool :=
  match st.itemAt row with
  | some (.group _) => true
  | _ => false

/-- The URI of a file row. -/
def uriAt (st : FileList) (row : ℕ) : Option String :=
  match st.itemAt row with
  | some (.file uri _) => uri
  | _ => none

/-- The document that a file row holds. -/
def docAt (st : FileList) (row : ℕ) : Option Doc :=
  match st.itemAt row with
  | some (.file _ doc) => doc
  | _ => none

/-- `file_list_find_uri` -/
def findUri (st : FileList) (uri : String) : Option ℕ :=
  st.rows.nodes.find? fun row => st.uriAt row = some uri

/-- `file_set_doc`, for the item of a row. -/
def fileSetDoc (st : FileList) (row : ℕ) (doc : Option Doc) : FileList :=
  match st.item row with
  | none => st
  | some it =>
    match st.items it with
    | .file uri _ => { st with items := Function.update st.items it (.file uri doc) }
    | .group _ => st

/-- The separator, after the user rows. -/
def insertSeparator (st : FileList) : FileList :=
  { st with
    rows := st.rows.insertTops st.nUserItems (.node st.nextRow .nil .nil)
    item := Function.update st.item st.nextRow none
    nextRow := st.nextRow + 1 }

/-- `file_list_remove_row` -/
def removeRow (st : FileList) (row : ℕ) : Option FileList :=
  if st.rows.parentOf row = none ∧ ¬ st.isAuto row then
    if st.nUserItems = 0 then none
    else
      let st := { st with
        nUserItems := st.nUserItems - 1
        rows := st.rows.without (· = row) }
      if st.nUserItems = 0 then
        -- the separator goes with the last user row
        match st.rows.tops.head? with
        | none => some st
        | some sep => some { st with rows := st.rows.without (· = sep) }
      else some st
  else some { st with rows := st.rows.without (· = row) }

/-- `file_list_append_row` -/
def appendRow (st : FileList) (it : ℕ) : FileList :=
  { st with
    rows := st.rows.append (.node st.nextRow .nil .nil)
    item := Function.update st.item st.nextRow (some it)
    nextRow := st.nextRow + 1 }

/-- `file_list_insert_row`, at a position that is given. The row is `nextRow`. -/
def insertRow (st : FileList) (it : ℕ) (parent : Option ℕ) (index : ℕ) : FileList :=
  let row := st.nextRow
  let index := if parent = none then min index st.nUserItems else index
  let st := { st with
    rows := st.rows.place parent index (.node row .nil .nil)
    item := Function.update st.item row (some it)
    nUserItems := if parent = none then st.nUserItems + 1 else st.nUserItems
    nextRow := row + 1 }
  if parent = none ∧ st.nUserItems = 1 then st.insertSeparator else st

/-- A row for an item that is new. -/
def insertNew (st : FileList) (item : Item) (parent : Option ℕ) (index : ℕ) : FileList :=
  { st with
    items := Function.update st.items st.nextItem item
    nextItem := st.nextItem + 1 }.insertRow st.nextItem parent index

/-- What the configuration file has. -/
inductive Element where
  | file (uri : String)
  | group (name : String)

/-- `file_list_insert_row` without a position. -/
def lastIndex (st : FileList) (parent : Option ℕ) : ℕ :=
  if parent = none then st.nUserItems else (st.rows.siblings parent).length

/-- `parse_node`, for all elements and what is in the groups. -/
def load : Forest Element → FileList → Option ℕ → FileList
  | .nil, st, _ => st
  | .node (.file uri) _ rest, st, parent =>
    load rest (st.insertNew (.file (some uri) none) parent (st.lastIndex parent)) parent
  | .node (.group name) kids rest, st, parent =>
    let group := st.nextRow
    let st := st.insertNew (.group name) parent (st.lastIndex parent)
    load rest (load kids st (some group)) parent

/-! ## Documents -/

/-- `connect_doc` -/
def connectDoc (st : FileList) (doc : Doc) : Option FileList :=
  if doc ∈ st.docs then none else some { st with docs := doc :: st.docs }

/-- `disconnect_doc` -/
def disconnectDoc (st : FileList) (doc : Doc) : Option FileList :=
  if doc ∈ st.docs then some { st with docs := st.docs.erase doc } else none

/-- `doc_get_list_iter` -/
def docGetListIter (st : FileList) (doc : Doc) : Option ℕ :=
  (st.docRow doc).filter fun row => row ∈ st.rows.nodes

/-- The row that a document gets, and what it holds. -/
def attachDoc (st : FileList) (doc : Doc) : Option FileList :=
  match (st.uri doc).bind st.findUri with
  | some row =>
    if st.docAt row = none ∧ (st.uriAt row).isSome then
      let st := st.fileSetDoc row (some doc)
      some { st with docRow := Function.update st.docRow doc (some row) }
    else none
  | none =>
    let row := st.nextRow
    let st := { st with
      items := Function.update st.items st.nextItem (.file none (some doc))
      nextItem := st.nextItem + 1 }.appendRow st.nextItem
    some { st with docRow := Function.update st.docRow doc (some row) }

/-- `file_list_add_doc` -/
def addDoc (st : FileList) (doc : Doc) (new : Bool) : Option FileList :=
  if new ∧ st.docRow doc ≠ none then none
  else if (new : Prop) ≠ (doc ∉ st.docs) then none
  else (st.attachDoc doc).bind fun st => if new then st.connectDoc doc else some st

/-- `file_list_update_doc` -/
def updateDoc (st : FileList) (doc : Doc) : Option FileList :=
  if doc ∉ st.docs then st.addDoc doc true
  else
    match st.docGetListIter doc with
    | none => st.addDoc doc false
    | some row =>
      if st.isAuto row ∨ st.docAt row ≠ some doc ∨ st.uriAt row = none then none
      else if st.uri doc ≠ st.uriAt row then
        { st with docRow := Function.update st.docRow doc none }.fileSetDoc row none
          |>.addDoc doc false
      else some st

/-- `file_list_remove_doc` -/
def removeDoc (st : FileList) (doc : Doc) : Option FileList :=
  if doc ∉ st.docs then none
  else
    let removed :=
      match st.docGetListIter doc with
      | none => some st
      | some row =>
        if st.docAt row ≠ some doc ∨ st.isAuto row ≠ (st.uriAt row).isNone then none
        else if st.isAuto row then st.removeRow row
        else some (st.fileSetDoc row none)
    removed.bind fun st => { st with docRow := Function.update st.docRow doc none }.disconnectDoc doc

/-- `remove_auto_items`: all rows after the separator, or all rows. -/
def removeAutoItems (st : FileList) : FileList :=
  let auto := st.rows.tops.drop (if st.nUserItems = 0 then 0 else st.nUserItems + 1)
  { st with rows := st.rows.without (· ∈ auto) }

/-- `file_list_update` -/
def update (st : FileList) (docs : List Doc) : Option FileList :=
  (docs.foldlM updateDoc st.removeAutoItems).bind fun st =>
    (st.docs.filter (· ∉ docs)).foldlM removeDoc st

/-- `file_list_shutdown`, one document after another. -/
def shutdown (st : FileList) : Option FileList :=
  st.docs.foldlM (fun st doc =>
    let released :=
      match st.docGetListIter doc with
      | none => some st
      | some row =>
        match st.itemAt row with
        | some (.file _ _) => some (st.fileSetDoc row none)
        | _ => none
    released.bind fun st =>
      { st with docRow := Function.update st.docRow doc none }.disconnectDoc doc) st

/-! ## Groups and removal -/

/-- `file_list_add_group`, with the path of the last selected row if there is one. -/
def addGroup (st : FileList) (path : Option (List ℕ)) : FileList :=
  match path with
  | none => st.insertNew (.group "Group") none st.nUserItems
  | some path =>
    match st.rows.nodeAt path with
    -- what is selected is a row
    | none => st
    | some row =>
      if st.isGroup row then st.insertNew (.group "Group") (some row) 0
      else if ¬ st.isAuto row then
        st.insertNew (.group "Group") (st.rows.parentOf row) (path.getLastD 0 + 1)
      else st.insertNew (.group "Group") none st.nUserItems

/-- `file_list_remove_items`: references to the rows first, then one after another with what is
still there. -/
def removeItems (st : FileList) (paths : List (List ℕ)) : Option FileList :=
  (paths.filterMap st.rows.nodeAt).foldlM (fun st row =>
    if row ∈ st.rows.nodes ∧ ¬ st.isAuto row then st.removeRow row else some st) st

/-! ## Moving -/

/-- `copy_row_children`: what is below a row is appended to a new row, in its order. -/
def copyRowChildren (st : FileList) (source dest : ℕ) : FileList :=
  let kids := st.rows.kidsOf source
  { st with
    rows := st.rows.insertAt dest 0 (kids.map (· + st.nextRow))
    item := fun row =>
      if st.nextRow ≤ row ∧ row - st.nextRow ∈ kids.nodes then st.item (row - st.nextRow)
      else st.item row
    nextRow := st.nextRow + st.nextRow }

/-- `copy_row` -/
def copyRow (st : FileList) (source : ℕ) (parent : Option ℕ) (index : ℕ) : FileList :=
  match st.item source with
  | none => st
  | some it => (st.insertRow it parent index).copyRowChildren source st.nextRow

/-- `gtk_tree_store_move_before`: the row goes before the sibling at a position, or to the end. -/
def moveBefore (rows : Forest ℕ) (source : ℕ) (parent : Option ℕ) (index : ℕ) : Forest ℕ :=
  let before := ((rows.siblings parent).take index).erase source
  (rows.without (· = source)).place parent before.length
    (.node source (rows.kidsOf source) .nil)

/-- The part of `move_row` for a row that stays with its parent. -/
def moveWithin (st : FileList) (source : ℕ) (parent : Option ℕ) (index : ℕ) : FileList :=
  let auto := parent = none ∧ st.isAuto source
  let st := { st with
    rows := moveBefore st.rows source parent index
    nUserItems := if auto then st.nUserItems + 1 else st.nUserItems }
  if auto ∧ st.nUserItems = 1 then st.insertSeparator else st

/-- `move_row` without its first part: a row goes to its place. -/
def placeRow (st : FileList) (source : ℕ) (parent : Option ℕ) (index : ℕ) : Option FileList :=
  if st.rows.parentOf source = parent then some (st.moveWithin source parent index)
  else (st.copyRow source parent index).removeRow source

/-- The first part of `move_row`: a file with a document gives it up and gets its URI. Nothing where
the document has none. -/
def releaseDoc (st : FileList) (source : ℕ) : Option FileList :=
  match st.item source with
  | none => some st
  | some it =>
    match st.items it with
    | .file uri (some doc) =>
      (uri.or (st.uri doc)).map fun uri =>
        { st with
          items := Function.update st.items it (.file (some uri) none)
          docRow := Function.update st.docRow doc none }
    | _ => some st

/-- `move_row` -/
def moveRow (st : FileList) (source : ℕ) (parent : Option ℕ) (index : ℕ) : Option FileList :=
  match st.releaseDoc source with
  | none => some st
  | some st => st.placeRow source parent index

/-- `find_drop_destination`: the parent and the position, or nothing. -/
def findDropDestination (st : FileList) (dest : List ℕ) : Option (Option ℕ × ℕ) :=
  if dest.length ≤ 1 then some (none, min (dest.headD 0) st.nUserItems)
  else
    let parent := dest.dropLast
    match st.rows.nodeAt parent with
    | none => none
    | some row =>
      if st.isGroup row then some (some row, min (dest.getLastD 0) (st.rows.kidsOf row).tops.length)
      else if parent.length ≤ 1 then some (none, min (parent.headD 0) st.nUserItems)
      else
        -- a drop on a file is a drop at its place in its group
        match st.rows.nodeAt parent.dropLast with
        | none => none
        | some group =>
          if st.isGroup group then
            some (some group, min (parent.getLastD 0) (st.rows.kidsOf group).tops.length)
          else none

/-- `drop_uris`, where nothing is added for a directory. -/
def dropUris (st : FileList) (isDirectory : String → Bool) (dest : List ℕ) (uris : List String) :
    FileList :=
  match st.findDropDestination dest with
  | none => st
  | some (parent, index) =>
    (uris.foldl (fun (s : FileList × ℕ) uri =>
      if (s.1.findUri uri).isSome then s
      else if isDirectory uri then (s.1, s.2 + 1)
      else (s.1.insertNew (.file (some uri) none) parent s.2, s.2 + 1)) (st, index)).1

/-- The row and its new place, where `drop_tree_model_row` gets to moving. -/
def dropPlace (st : FileList) (dest source : List ℕ) : Option (ℕ × Option ℕ × ℕ) :=
  (st.rows.nodeAt source).bind fun row =>
    if st.item row = none then none
    else
      (st.findDropDestination dest).bind fun (parent, index) =>
        if ∃ p ∈ parent, p ∈ st.rows.under row then none else some (row, parent, index)

/-- `drop_tree_model_row` -/
def dropTreeModelRow (st : FileList) (dest source : List ℕ) : Option FileList :=
  match st.dropPlace dest source with
  | none => some st
  | some (row, parent, index) => st.moveRow row parent index

/-! ## Runs -/

/-- What happens: an update with the open documents, another URI of a document, and what the user
does. -/
inductive Call where
  | update (docs : List Doc) (nodup : docs.Nodup)
  | setUri (doc : Doc) (uri : Option String)
  | addGroup (path : Option (List ℕ))
  | removeItems (paths : List (List ℕ))
  | dropUris (isDirectory : String → Bool) (dest : List ℕ) (uris : List String)
  | dropRow (dest source : List ℕ)

def step (st : FileList) : Call → Option FileList
  | .update docs _ => st.update docs
  | .setUri doc uri => some { st with uri := Function.update st.uri doc uri }
  | .addGroup path => some (st.addGroup path)
  | .removeItems paths => st.removeItems paths
  | .dropUris isDirectory dest uris => some (st.dropUris isDirectory dest uris)
  | .dropRow dest source => st.dropTreeModelRow dest source

/-- `file_list_init` -/
def init : FileList :=
  ⟨.nil, fun _ => none, fun _ => .group "", 0, [], fun _ => none, fun _ => none, 0, 0⟩

end FileList

end Medit.FileListPlugin
