import Medit.Library.ForestEdit
import Medit.Library.KeyedQueue
import Medit.Library.MarkupTree

/-!
# UI descriptions

Translation of the tree of `moo/mooutils/moouixml.cpp`: it is read from markup, and merges add nodes
to it and take them away. The widgets that are made of it are left out here. Where nodes are in
memory is up to an allocator, and memory that has been freed may be used again.

## Main definitions

* `MooUiNode`, `parseElements`, `nodeCheck` — nodes, and how they are read from markup.
* `MooUiXml` — the tree and the lists of the merges.
* `MooUiXml.addItem`, `MooUiXml.insert`, `MooUiXml.removeNode`, `MooUiXml.removeUi` — the calls.
* `MooUiXml.step` — a call of a run; it is `none` where the program crashes.
-/

namespace Medit

open LinkedForest Function

/-- `MooUiNodeType` -/
inductive MooUiNodeType
  | container | widget | item | separator | placeholder
deriving DecidableEq

/-- What a node has beside its place in the tree. -/
structure MooUiNode where
  type : MooUiNodeType
  name : List UInt8
  action : Option (List UInt8)
deriving DecidableEq

/-- `node_new`; the name may be `NULL`. -/
def nodeNew (type : MooUiNodeType) (name : Option (List UInt8)) : MooUiNode :=
  ⟨type, name.getD [], none⟩

/-- `item_new` -/
def itemNew (name action : Option (List UInt8)) : MooUiNode :=
  { nodeNew .item name with action := action }

/-! ## Markup -/

/-- `moo_markup_get_prop` -/
def markupGetProp (attrs : List (String × List UInt8)) (name : String) : Option (List UInt8) :=
  attrs.lookup name

/-- What `parse_object`, `parse_widget` and `parse_placeholder` have in common. -/
def parseNamed (type : MooUiNodeType) (attrs : List (String × List UInt8))
    (children : Option (Forest MooUiNode)) : Option (MooUiNode × Forest MooUiNode) :=
  match markupGetProp attrs "name" with
  | none => none
  | some name => if name = [] then none else children.map fun k => (nodeNew type (some name), k)

/-- `parse_object` -/
def parseObject := parseNamed .container

/-- `parse_widget` -/
def parseWidget := parseNamed .widget

/-- `parse_placeholder` -/
def parsePlaceholder := parseNamed .placeholder

/-- `parse_item` -/
def parseItem (attrs : List (String × List UInt8)) (children : Option (Forest MooUiNode)) :
    Option (MooUiNode × Forest MooUiNode) :=
  let action := markupGetProp attrs "action"
  children.map fun k => (itemNew ((markupGetProp attrs "name").or action) action, k)

/-- `parse_separator`, which does not look at children. -/
def parseSeparator : Option (MooUiNode × Forest MooUiNode) := some (nodeNew .separator none, .nil)

/-- `parse_markup`, with the children as they have been parsed. -/
def parseMarkup (name : String) (attrs : List (String × List UInt8))
    (children : Option (Forest MooUiNode)) : Option (MooUiNode × Forest MooUiNode) :=
  if name = "object" then parseObject attrs children
  else if name = "widget" then parseWidget attrs children
  else if name = "item" then parseItem attrs children
  else if name = "separator" then parseSeparator
  else if name = "placeholder" then parsePlaceholder attrs children
  else none

/-- The children of an element, if all of them can be parsed. -/
def parseChildren : Markup → Option (Forest MooUiNode)
  | .nil => some .nil
  | .text _ next => parseChildren next
  | .element name attrs children next =>
    match parseMarkup name attrs (parseChildren children) with
    | none => none
    | some (d, k) => (parseChildren next).map (.node d k)

/-- An element of a document is parsed. -/
def parseMarkupElement (e : Markup.Element) : Option (MooUiNode × Forest MooUiNode) :=
  parseMarkup e.name e.attrs (parseChildren e.children)

/-! ## Checks -/

/-- The types of nodes in a container. -/
def MooUiNodeType.inContainer : MooUiNodeType → Bool
  | .container | .widget => true
  | .item | .separator | .placeholder => false

/-- The nodes of a list of children have types that are allowed, and are right themselves. -/
def checkChildren (allowed : MooUiNodeType → Bool) : Forest MooUiNode → Bool
  | .nil => true
  | .node d k r =>
    allowed d.type &&
      (match d.type with
      | .container => d.name ≠ [] && checkChildren MooUiNodeType.inContainer k
      | .widget | .placeholder => d.name ≠ [] && checkChildren (!·.inContainer) k
      | .item => checkChildren (!·.inContainer) k
      | .separator => true) &&
      checkChildren allowed r

/-- `container_check` -/
def containerCheck (d : MooUiNode) (k : Forest MooUiNode) : Bool :=
  d.name ≠ [] && checkChildren MooUiNodeType.inContainer k

/-- `widget_check` -/
def widgetCheck (d : MooUiNode) (k : Forest MooUiNode) : Bool :=
  d.name ≠ [] && checkChildren (!·.inContainer) k

/-- `item_check` -/
def itemCheck (k : Forest MooUiNode) : Bool := checkChildren (!·.inContainer) k

/-- `placeholder_check` -/
def placeholderCheck (d : MooUiNode) (k : Forest MooUiNode) : Bool :=
  d.name ≠ [] && checkChildren (!·.inContainer) k

/-- `node_check` -/
def nodeCheck (d : MooUiNode) (k : Forest MooUiNode) : Bool :=
  match d.type with
  | .container => containerCheck d k
  | .widget => widgetCheck d k
  | .item => itemCheck k
  | .separator => true
  | .placeholder => placeholderCheck d k

/-! ## The tree -/

/-- A merge and its nodes. -/
structure Merge where
  id : ℕ
  nodes : List ℕ
deriving DecidableEq

/-- The tree with its root, what the nodes are, and the merges, the last one first. -/
structure MooUiXml where
  ui : Forest ℕ
  data : ℕ → MooUiNode
  lastMergeId : ℕ
  mergedUi : List Merge

/-- `moo_ui_xml_init`; the root is at some address. -/
def MooUiXml.init (root : ℕ) : MooUiXml :=
  ⟨.node root .nil .nil, fun _ => nodeNew .container (some "ui".toUTF8.toList), 0, []⟩

/-- Nodes are put into memory, at addresses that are not in use. -/
def placeNodes (mem : KeyedQueue.Allocator) :
    Forest MooUiNode → List ℕ → (ℕ → MooUiNode) → Forest ℕ × (ℕ → MooUiNode)
  | .nil, _, data => (.nil, data)
  | .node d k r, live, data =>
    let x := mem.get live.length live
    let below := placeNodes mem k (x :: live) (update data x d)
    let after := placeNodes mem r (x :: (below.1.nodes ++ live)) below.2
    (.node x below.1 after.1, after.2)

namespace MooUiXml

variable (mem : KeyedQueue.Allocator) (xml : MooUiXml)

/-- `moo_ui_node_get_child`, from pieces of the path. -/
def getChildOf : ℕ → List (List UInt8) → Option ℕ
  | node, [] => some node
  | node, piece :: pieces =>
    match (xml.ui.kidsOf node).tops.find? fun child => (xml.data child).name = piece with
    | none => none
    | some child => getChildOf child pieces

/-- `moo_ui_xml_get_node`. The pieces of a path are between slashes, and empty ones are skipped. -/
def getNode (path : List UInt8) : Option ℕ :=
  match xml.ui.head with
  | none => none
  | some root => xml.getChildOf root ((path.splitOn '/'.toUInt8).filter (· ≠ []))

/-- `moo_ui_xml_find_placeholder` -/
def findPlaceholder (name : List UInt8) : Option ℕ :=
  xml.ui.nodes.find? fun node => (xml.data node).type = .placeholder ∧ (xml.data node).name = name

/-- `moo_ui_xml_find_node` -/
def findNode (path : List UInt8) : Option ℕ := (xml.getNode path).or (xml.findPlaceholder path)

/-- `node_is_ancestor`, of nodes in the tree. -/
def nodeIsAncestor (node ancestor : ℕ) : Bool := node ∈ xml.ui.under ancestor

/-- `moo_ui_xml_new_merge_id`; the id is a `guint`. -/
def newMergeId : MooUiXml :=
  let id := (xml.lastMergeId + 1) % 2 ^ 32
  { xml with lastMergeId := id, mergedUi := ⟨id, []⟩ :: xml.mergedUi }

/-- `lookup_merge` -/
def lookupMerge (id : ℕ) : Option Merge := xml.mergedUi.find? (·.id = id)

/-- The first merge with the id is changed. -/
def changeMerge (id : ℕ) (change : Merge → Merge) : List Merge → List Merge
  | [] => []
  | m :: rest => if m.id = id then change m :: rest else m :: changeMerge id change rest

/-- `merge_add_node` -/
def mergeAddNode (added : ℕ) (m : Merge) : Merge :=
  if m.nodes.any fun node => xml.nodeIsAncestor added node then m
  else { m with nodes := added :: m.nodes }

/-- The place that `g_slist_insert` uses among `n` elements. -/
def slistPosition (position : ℤ) (n : ℕ) : ℕ :=
  if position < 0 ∨ n < position then n else position.toNat

/-- A node is put below `parent` at a position, and on the list of the merge. -/
def addNode (id parent position : ℕ) (d : MooUiNode) (k : Forest MooUiNode) : MooUiXml :=
  let placed := placeNodes mem (.node d k .nil) xml.ui.nodes xml.data
  let xml := { xml with ui := xml.ui.insertAt parent position placed.1, data := placed.2 }
  match placed.1.head with
  | none => xml
  | some node => { xml with mergedUi := changeMerge id (xml.mergeAddNode node) xml.mergedUi }

/-- `moo_ui_xml_add_item` -/
def addItem (id : ℕ) (parentPath : List UInt8) (name action : Option (List UInt8)) (position : ℤ) :
    MooUiXml :=
  let name := if name.getD [] = [] then action else name
  match xml.lookupMerge id, xml.findNode parentPath with
  | some _, some parent =>
    match (xml.data parent).type with
    | .widget | .item | .placeholder =>
      xml.addNode mem id parent (slistPosition position (xml.ui.kidsOf parent).tops.length)
        (itemNew name action) .nil
    | .container | .separator => xml
  | _, _ => xml

/-- The nodes that may be put below a node: containers and widgets below containers, others below
the others. -/
def canHold (parent child : MooUiNodeType) : Bool :=
  match child with
  | .widget | .container => parent = .container
  | .item | .placeholder | .separator => ¬ (parent = .separator ∨ parent = .container)

/-- The node of an element that is put below a node of a type. -/
def acceptElement (parent : MooUiNodeType) (e : Markup.Element) :
    Option (MooUiNode × Forest MooUiNode) :=
  match parseMarkupElement e with
  | none => none
  | some (d, k) => if nodeCheck d k && canHold parent d.type then some (d, k) else none

/-- The elements are put below `parent`, each before those that have been put there. -/
def insertElements (id parent position : ℕ) (xml : MooUiXml) : List Markup.Element → MooUiXml
  | [] => xml
  | e :: before =>
    match acceptElement (xml.data parent).type e with
    | none => insertElements id parent position xml before
    | some (d, k) =>
      insertElements id parent position (xml.addNode mem id parent position d k) before

/-- `moo_ui_xml_insert`; the markup is `none` if it is wrong. -/
def insert (id : ℕ) (parent : Option ℕ) (position : ℤ) (markup : Option Markup) : MooUiXml :=
  match parent.or xml.ui.head, xml.lookupMerge id, markup with
  | some parent, some _, some doc =>
    if parent ∉ xml.ui.nodes ∨ (xml.data parent).type = .separator then xml
    else
      xml.insertElements mem id parent (slistPosition position (xml.ui.kidsOf parent).tops.length)
        doc.elements.reverse
  | _, _, _ => xml

/-- The nodes of a merge that are below a removed one are taken off its list, in a loop over a copy
of it with `merge_remove_node`. -/
def purge (node : ℕ) (m : Merge) : Merge :=
  m.nodes.foldl (fun m n => if xml.nodeIsAncestor n node then { m with nodes := m.nodes.erase n } else m)
    m

/-- `moo_ui_xml_remove_node`; the root has no parent to be taken from. -/
def removeNode (node : ℕ) : Option MooUiXml :=
  if node ∉ xml.ui.nodes then some xml
  else if node ∈ xml.ui.tops then none
  else some { xml with ui := xml.ui.without (· = node), mergedUi := xml.mergedUi.map (xml.purge node) }

/-- `moo_ui_xml_remove_ui` -/
def removeUi (id : ℕ) : Option MooUiXml :=
  match xml.lookupMerge id with
  | none => some xml
  | some m =>
    (m.nodes.foldlM removeNode xml).map fun xml =>
      if (xml.lookupMerge id).any (·.nodes = []) then
        { xml with mergedUi := xml.mergedUi.eraseP (·.id = id) }
      else xml

/-- `xml_add_markup` -/
def addMarkup (e : Markup.Element) : MooUiXml :=
  match parseMarkupElement e with
  | none => xml
  | some (d, k) =>
    if d.type.inContainer && nodeCheck d k && (xml.getNode d.name).isNone then
      let placed := placeNodes mem (.node d k .nil) xml.ui.nodes xml.data
      match xml.ui.head with
      | none => xml
      | some root =>
        { xml with
          ui := xml.ui.insertAt root (xml.ui.kidsOf root).tops.length placed.1
          data := placed.2 }
    else xml

/-- `moo_ui_xml_add_ui_from_string`, with the elements of the root `ui` or else of the document. -/
def addUiFromString (markup : Option Markup) : MooUiXml :=
  match markup with
  | none => xml
  | some doc =>
    let children := ((doc.elements.find? (·.name = "ui")).map (·.children)).getD doc
    children.elements.foldl (·.addMarkup mem ·) xml

/-! ## Runs -/

/-- A call. -/
inductive Call
  | addUiFromString (markup : Option Markup)
  | newMergeId
  | addItem (id : ℕ) (parentPath : List UInt8) (name action : Option (List UInt8)) (position : ℤ)
  | insert (id : ℕ) (parent : Option ℕ) (position : ℤ) (markup : Option Markup)
  | removeNode (node : ℕ)
  | removeUi (id : ℕ)

/-- What a call does, if it does not crash. -/
def step : Call → Option MooUiXml
  | .addUiFromString markup => some (xml.addUiFromString mem markup)
  | .newMergeId => some xml.newMergeId
  | .addItem id parentPath name action position =>
    some (xml.addItem mem id parentPath name action position)
  | .insert id parent position markup => some (xml.insert mem id parent position markup)
  | .removeNode node => xml.removeNode node
  | .removeUi id => xml.removeUi id

end MooUiXml

end Medit
