import Medit.Library.CString
import Medit.Library.KeyedQueue
import Medit.Library.MarkupTree
import Medit.Library.StringEq

/-!
# Recent files

`moohistorymgr.cpp`: the list of recent files with its table, the file it is saved to, and the
messages by which instances tell each other of changes. A text is what `g_markup_escape_text` makes
of it and GMarkup undoes, so files and messages are the markup they stand for. What is shown of the
list is left out.

## Main definitions

* `HistoryItem` — a file with its data.
* `HistoryMgr` — the list with the table of its links.
* `HistoryMgr.addFileReal`, `HistoryMgr.updateFileReal`, `HistoryMgr.removeUriReal`,
  `HistoryMgr.clearReal` — the operations.
* `HistoryMgr.ipcCallback` — a message of another instance.
* `HistoryMgr.save`, `HistoryMgr.loadFile` — the file of the list.
-/

namespace Medit

open CString

/-! ## Items -/

/-- A `MooHistoryItem`; its data is a `GData`, with one value for a key. -/
structure HistoryItem where
  uri : List UInt8
  data : List (List UInt8 × List UInt8)
  nodup : (data.map Prod.fst).Nodup
deriving DecidableEq

namespace HistoryItem

instance : Inhabited HistoryItem := ⟨⟨[], [], List.nodup_nil⟩⟩

/-- `moo_history_item_new` without data -/
def new (uri : List UInt8) : HistoryItem := ⟨uri, [], List.nodup_nil⟩

/-- `moo_history_item_get` -/
def get (item : HistoryItem) (key : List UInt8) : Option (List UInt8) := item.data.lookup key

theorem nodup_set {data : List (List UInt8 × List UInt8)} (h : (data.map Prod.fst).Nodup)
    (key value : List UInt8) :
    ((if key ∈ data.map Prod.fst then data.map fun p => if p.1 = key then (key, value) else p
      else data ++ [(key, value)]).map Prod.fst).Nodup := by
  split_ifs with hkey
  · have hfst : (data.map fun p => if p.1 = key then (key, value) else p).map Prod.fst =
        data.map Prod.fst := by
      rw [List.map_map]
      refine List.map_congr_left fun p _ => ?_
      simp only [Function.comp]
      split_ifs with hp
      · exact hp.symm
      · rfl
    rwa [hfst]
  · rw [List.map_append]
    exact List.nodup_append.2 ⟨h, by simp, by grind⟩

/-- `moo_history_item_set` with a value -/
def set (item : HistoryItem) (key value : List UInt8) : HistoryItem where
  uri := item.uri
  data :=
    if key ∈ item.data.map Prod.fst then item.data.map fun p => if p.1 = key then (key, value) else p
    else item.data ++ [(key, value)]
  nodup := nodup_set item.nodup key value

/-- `moo_history_item_copy` -/
def copy (item : HistoryItem) : HistoryItem :=
  item.data.foldl (fun copy p => copy.set p.1 p.2) (new item.uri)

/-- `moo_history_item_equal` -/
def equal (item1 item2 : HistoryItem) : Bool :=
  item1.uri == item2.uri && item2.data.all (fun p => item1.get p.1 == some p.2) &&
    item1.data.all fun p => item2.get p.1 == some p.2

/-- `format_data` -/
def formatData (p : List UInt8 × List UInt8) : Markup :=
  .text (ascii "    ".toList)
    (.element "data" [("key", p.1), ("value", p.2)] .nil (.text (ascii "\n".toList) .nil))

/-- `moo_history_item_format` -/
def format (item : HistoryItem) : Markup :=
  if item.data = [] then
    .text (ascii "  ".toList)
      (.element "item" [("uri", item.uri)] .nil (.text (ascii "\n".toList) .nil))
  else
    .text (ascii "  ".toList)
      (.element "item" [("uri", item.uri)]
        (.text (ascii "\n".toList)
          (item.data.foldr (fun p m => (formatData p).append m) (.text (ascii "  ".toList) .nil)))
        (.text (ascii "\n".toList) .nil))

end HistoryItem

/-! ## Messages -/

inductive UpdateType
  | update
  | remove
  | add
  | clear
deriving DecidableEq

/-- The name of an `UpdateType` in a message. -/
def UpdateType.name : UpdateType → List UInt8
  | update => ascii "update".toList
  | remove => ascii "remove".toList
  | add => ascii "add".toList
  | clear => ascii "clear".toList

/-- The `UpdateType` of a name. -/
def UpdateType.ofName (name : List UInt8) : Option UpdateType :=
  if name = ascii "add".toList then some add
  else if name = ascii "remove".toList then some remove
  else if name = ascii "update".toList then some update
  else if name = ascii "clear".toList then some clear
  else none

/-- `PROP_VERSION_VALUE` -/
def historyVersion : List UInt8 := ascii "1.0".toList

/-- `format_for_update` -/
def formatForUpdate (item : Option HistoryItem) (type : UpdateType) : Markup :=
  .element "md-recent-files-update" [("version", historyVersion), ("type", type.name)]
    (.text (ascii "\n".toList) (match item with
      | some item => item.format
      | none => .nil))
    (.text (ascii "\n".toList) .nil)

/-- `moo_markup_get_prop` -/
def getProp (elm : Markup.Element) (name : String) : Option (List UInt8) := elm.attrs.lookup name

/-- `parse_element` -/
def parseElement (elm : Markup.Element) : Option HistoryItem :=
  if elm.name ≠ "item" then none
  else
    match getProp elm "uri" with
    | none => none
    | some uri =>
      some (elm.children.elements.foldl (fun item child =>
        if child.name ≠ "data" then item
        else
          match getProp child "key", getProp child "value" with
          | some key, some value => if key = [] ∨ value = [] then item else item.set key value
          | _, _ => item) (HistoryItem.new uri))

/-- `parse_update_item` -/
def parseUpdateItem (xml : Markup) : Option (Option HistoryItem × UpdateType) :=
  match xml.elements.find? (·.name = "md-recent-files-update") with
  | none => none
  | some root =>
    if getProp root "version" ≠ some historyVersion then none
    else
      match (getProp root "type").bind UpdateType.ofName with
      | none => none
      | some .clear => some (none, .clear)
      | some type =>
        match root.children.elements with
        | [] => none
        | child :: _ => (parseElement child).map fun item => (some item, type)

/-! ## The file -/

/-- Where the parser of the file is, `Element` in the source. -/
inductive HistoryElement
  | none
  | root
  | item
  | data
deriving DecidableEq

/-- `ParserData`, with the items for which `add_file` has been called. -/
structure HistoryParser where
  seenRoot : Bool
  element : HistoryElement
  item : Option HistoryItem
  added : List HistoryItem
deriving DecidableEq

namespace HistoryParser

/-- The attributes of the root are one version. -/
def rootAttrs : List (String × List UInt8) → Bool → Bool
  | [], seenVersion => seenVersion
  | (p, v) :: attrs, seenVersion =>
    if seenVersion ∨ p ≠ "version" then false
    else if v ≠ historyVersion then false
    else rootAttrs attrs true

/-- `start_element_root`, with nothing for an error -/
def startElementRoot (data : HistoryParser) (name : String) (attrs : List (String × List UInt8)) :
    Option HistoryParser :=
  if data.seenRoot then none
  else if name ≠ "md-recent-files" then none
  else if rootAttrs attrs false then some { data with seenRoot := true, element := .root }
  else none

/-- The item of the attributes, which are one URI. -/
def itemAttrs : List (String × List UInt8) → Option HistoryItem → Option HistoryItem
  | [], item => item
  | (p, v) :: attrs, item =>
    if p ≠ "uri" then none
    else if item.isSome then none
    else itemAttrs attrs (some (HistoryItem.new v))

/-- `start_element_item` -/
def startElementItem (data : HistoryParser) (name : String) (attrs : List (String × List UInt8)) :
    Option HistoryParser :=
  if name ≠ "item" then none
  else (itemAttrs attrs none).map fun item => { data with element := .item, item := some item }

/-- The key and the value of the attributes, of which there are no others. -/
def dataAttrs : List (String × List UInt8) → Option (List UInt8) → Option (List UInt8) →
    Option (Option (List UInt8) × Option (List UInt8))
  | [], key, value => some (key, value)
  | (p, v) :: attrs, key, value =>
    if p = "key" then dataAttrs attrs (some v) value
    else if p = "value" then dataAttrs attrs key (some v)
    else none

/-- `start_element_data` -/
def startElementData (data : HistoryParser) (name : String) (attrs : List (String × List UInt8)) :
    Option HistoryParser :=
  match data.item with
  | none => some data
  | some item =>
    if name ≠ "data" then none
    else
      match dataAttrs attrs none none with
      | some (some key, some value) =>
        if key = [] then none
        else some { data with element := .data, item := some (item.set key value) }
      | _ => none

/-- `parser_start_element` -/
def startElement (data : HistoryParser) (name : String) (attrs : List (String × List UInt8)) :
    Option HistoryParser :=
  match data.element with
  | .none => data.startElementRoot name attrs
  | .root => data.startElementItem name attrs
  | .item => data.startElementData name attrs
  | .data => none

/-- `parser_end_element` -/
def endElement (data : HistoryParser) : HistoryParser :=
  match data.element with
  | .root => { data with element := .none }
  | .item => { data with element := .root, item := none, added := data.added ++ data.item.toList }
  | .data => { data with element := .item }
  | .none => data

/-- The parser goes on until there is an error. -/
def parse (data : HistoryParser) : List MarkupEvent → HistoryParser
  | [] => data
  | .start name attrs :: events =>
    match data.startElement name attrs with
    | some data => data.parse events
    | none => data
  | .stop :: events => data.endElement.parse events
  | .text _ :: events => data.parse events

end HistoryParser

/-- The items of a file, in the order of the calls of `add_file`. -/
def historyItems (file : List MarkupEvent) : List HistoryItem :=
  (HistoryParser.parse ⟨false, .none, none, []⟩ file).added

/-! ## The list -/

/-- `MAX_ITEM_NUMBER` -/
def maxItemNumber : ℕ := 5000

/-- A `MooHistoryMgr`: its list and table, and what is in its file. `sent` are the messages it has
sent, where it has a name, and `allocs` counts the links it has had. -/
structure HistoryMgr where
  files : KeyedQueue (List UInt8) HistoryItem
  loaded : Bool
  named : Bool
  saveIdle : Bool
  file : Option (List MarkupEvent)
  sent : List Markup
  allocs : ℕ

namespace HistoryMgr

/-- `moo_history_mgr_init` -/
def new (named : Bool) (file : Option (List MarkupEvent)) : HistoryMgr where
  files := .empty
  loaded := false
  named := named
  saveIdle := false
  file := file
  sent := []
  allocs := 0

/-- `ipc_notify` -/
def ipcNotify (mgr : HistoryMgr) (item : Option HistoryItem) (type : UpdateType) : HistoryMgr :=
  if mgr.named then { mgr with sent := mgr.sent ++ [formatForUpdate item type] } else mgr

/-- `schedule_save` -/
def scheduleSave (mgr : HistoryMgr) : HistoryMgr := { mgr with saveIdle := true }

variable (mem : KeyedQueue.Allocator)

/-- `g_list_alloc` -/
def alloc (mgr : HistoryMgr) : ℕ := mem.get mgr.allocs mgr.files.links

/-- `add_file` -/
def addFile (mgr : HistoryMgr) (item : HistoryItem) : HistoryMgr :=
  match mgr.files.table item.uri with
  | some _ => mgr
  | none =>
    let l := mgr.alloc mem
    { mgr with files := (mgr.files.pushTail l item).insert item.uri l, allocs := mgr.allocs + 1 }

/-- `load_file` -/
def loadFile (mgr : HistoryMgr) : HistoryMgr :=
  let mgr := { mgr with loaded := true }
  match mgr.file with
  | none => mgr
  | some file => (historyItems file).foldl (addFile mem) mgr

/-- `ensure_files` -/
def ensureFiles (mgr : HistoryMgr) : HistoryMgr := if mgr.loaded then mgr else mgr.loadFile mem

/-- `moo_history_mgr_remove_uri_real` -/
def removeUriReal (mgr : HistoryMgr) (uri : List UInt8) (notify : Bool) : HistoryMgr :=
  let mgr := mgr.ensureFiles mem
  match mgr.files.table uri with
  | none => mgr
  | some link =>
    let item := mgr.files.data link
    let mgr := { mgr with files := (mgr.files.remove uri).unlink link }
    if notify then mgr.scheduleSave.ipcNotify (some item) .remove else mgr

/-- The check of `MAX_ITEM_NUMBER` at the end of `moo_history_mgr_add_file_real`. -/
def trim (mgr : HistoryMgr) : HistoryMgr :=
  if mgr.files.links.length > maxItemNumber then
    match mgr.files.links.getLast? with
    | some tail => mgr.removeUriReal mem (mgr.files.data tail).uri true
    | none => mgr
  else mgr

/-- `moo_history_mgr_add_file_real` -/
def addFileReal (mgr : HistoryMgr) (item : HistoryItem) (notify : Bool) : HistoryMgr :=
  let mgr := mgr.ensureFiles mem
  let announce (mgr : HistoryMgr) (newItem : HistoryItem) : HistoryMgr :=
    if notify then mgr.scheduleSave.ipcNotify (some newItem) .add else mgr
  let mgr :=
    match mgr.files.table item.uri with
    | none =>
      let l := mgr.alloc mem
      announce { mgr with
        files := (mgr.files.pushHead l item.copy).insert item.uri l
        allocs := mgr.allocs + 1 } item.copy
    | some link =>
      if mgr.files.links.head? ≠ some link ∨ !item.equal (mgr.files.data link) then
        announce { mgr with
          files := ((mgr.files.unlink link).pushHeadLink link).setData link item.copy } item.copy
      else mgr
  mgr.trim mem

/-- `moo_history_mgr_update_file_real` -/
def updateFileReal (mgr : HistoryMgr) (file : HistoryItem) (notify : Bool) : HistoryMgr :=
  let mgr := mgr.ensureFiles mem
  match mgr.files.table file.uri with
  | none => mgr.addFileReal mem file true
  | some link =>
    if !(mgr.files.data link).equal file then
      let mgr := { mgr with files := mgr.files.setData link file.copy }
      if notify then mgr.scheduleSave.ipcNotify (some file.copy) .update else mgr
    else mgr

/-- `moo_history_mgr_clear_real` -/
def clearReal (mgr : HistoryMgr) (notify : Bool) : HistoryMgr :=
  let mgr := mgr.ensureFiles mem
  if mgr.files.links = [] then mgr
  else
    let mgr := { mgr with files := { mgr.files with links := [], table := fun _ => none } }
    if notify then mgr.scheduleSave.ipcNotify none .clear else mgr

/-- `ipc_callback`, with nothing for a message that is no markup. -/
def ipcCallback (mgr : HistoryMgr) (xml : Option Markup) : HistoryMgr :=
  let mgr := mgr.ensureFiles mem
  match xml.bind parseUpdateItem with
  | some (some item, .update) => mgr.updateFileReal mem item false
  | some (some item, .add) => mgr.addFileReal mem item false
  | some (some item, .remove) => mgr.removeUriReal mem item.uri false
  | some (_, .clear) => mgr.clearReal mem false
  | _ => mgr

/-- `moo_history_mgr_save` -/
def save (mgr : HistoryMgr) : HistoryMgr :=
  if mgr.files.links = [] then { mgr with file := none }
  else
    let items := mgr.files.items.foldr (fun item m => item.format.append m) .nil
    { mgr with file := some (Markup.events
        (.element "md-recent-files" [("version", historyVersion)]
          (.text (ascii "\n".toList) items) (.text (ascii "\n".toList) .nil))) }

/-- `save_in_idle` -/
def saveInIdle (mgr : HistoryMgr) : HistoryMgr := { mgr with saveIdle := false }.save

end HistoryMgr

end Medit
