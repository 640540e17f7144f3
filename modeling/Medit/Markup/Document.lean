import Medit.Library.KeyedQueue
import Medit.Library.SiblingLinks
import Medit.Library.Utf8

/-!
# Markup documents

Translation of the tree of `moo/mooutils/moomarkup.cpp`. Nodes are in memory, where an allocator puts
them, and refer to each other with pointers.

## Main definitions

* `MooMarkupDoc` — the pointers and the data of the nodes that are in use.
* `MooMarkupDoc.createElement`, `MooMarkupDoc.createTextElement`, `MooMarkupDoc.setProp`,
  `MooMarkupDoc.setContent`, `MooMarkupDoc.deleteNode` — the calls.
* `MooMarkupDoc.step` — a call of a run.
-/

namespace Medit

open LinkedForest Function

/-- `MooMarkupNodeType` -/
inductive MooMarkupNodeType
  | doc | element | text | comment
deriving DecidableEq

/-- What a node has beside its pointers. Elements have a content and attributes, and texts and
comments have a text. -/
structure MooMarkupNode where
  type : MooMarkupNodeType
  name : String
  content : Option (List UInt8)
  attrs : List (String × List UInt8)
  text : List UInt8
deriving DecidableEq

/-- The node of a document, the pointers and the data in memory, and the addresses in use. -/
structure MooMarkupDoc where
  doc : ℕ
  links : ℕ → Siblings.Links ℕ
  data : ℕ → MooMarkupNode
  live : List ℕ
  modified : Bool

/-- The data of an element. -/
def elementData (name : String) (attrs : List (String × List UInt8)) : MooMarkupNode :=
  ⟨.element, name, none, attrs, []⟩

/-- The data of a text or a comment. -/
def textData (type : MooMarkupNodeType) (text : List UInt8) : MooMarkupNode :=
  ⟨type, if type = .text then "TEXT" else "COMMENT", none, [], text⟩

/-- `g_strsplit` at slashes, which makes no piece of an empty path. -/
def splitPath (path : String) : List String :=
  if path.toList = [] then [] else (path.toList.splitOn '/').map String.ofList

namespace MooMarkupDoc

/-- `moo_markup_doc_new` -/
def new (mem : KeyedQueue.Allocator) (name : String) : MooMarkupDoc :=
  let doc := mem.get 0 []
  ⟨doc, fun _ => ⟨none, none, none, none, none⟩, fun _ => ⟨.doc, name, none, [], []⟩, [doc], false⟩

/-- The nodes that are found from one on along next siblings. -/
def walk (links : ℕ → Siblings.Links ℕ) : ℕ → Option ℕ → List ℕ
  | 0, _ => []
  | _, none => []
  | n + 1, some x => x :: walk links n (links x).next

variable (mem : KeyedQueue.Allocator) (d : MooMarkupDoc)

/-- The children of a node, as a loop over them finds them. -/
def childrenOf (node : ℕ) : List ℕ := walk d.links d.live.length (d.links node).first

/-- `MOO_MARKUP_IS_ELEMENT` -/
def isElement (node : ℕ) : Bool := (d.data node).type = .element

/-! ## Nodes -/

/-- `add_node`, with the address of the new node. -/
def addNode (parent : ℕ) (node : MooMarkupNode) : ℕ × MooMarkupDoc :=
  let x := mem.get d.live.length d.live
  (x, { d with
    links := Siblings.pushLast d.links parent x
    data := update d.data x node
    live := x :: d.live
    modified := true })

/-- `moo_markup_element_new` -/
def elementNew (parent : ℕ) (name : String) (attrs : List (String × List UInt8)) :
    ℕ × MooMarkupDoc :=
  d.addNode mem parent (elementData name attrs)

/-- `moo_markup_text_node_new` -/
def textNodeNew (type : MooMarkupNodeType) (parent : ℕ) (text : List UInt8) : ℕ × MooMarkupDoc :=
  d.addNode mem parent (textData type text)

/-- `moo_markup_text_node_add_text` -/
def textNodeAddText (node : ℕ) (text : List UInt8) : MooMarkupDoc :=
  if text = [] then d
  else
    { d with
      data := update d.data node { d.data node with text := (d.data node).text ++ text }
      modified := true }

/-- The nodes that `moo_markup_node_free` frees, of the siblings from one on. -/
def freeNodes (links : ℕ → Siblings.Links ℕ) : ℕ → Option ℕ → List ℕ
  | 0, _ => []
  | _, none => []
  | n + 1, some x => x :: (freeNodes links n (links x).first ++ freeNodes links n (links x).next)

/-- `moo_markup_delete_node` -/
def deleteNode (node : ℕ) : MooMarkupDoc :=
  match (d.links node).parent with
  | none => d
  | some parent =>
    let d := { d with modified := true }
    if node ∉ d.childrenOf parent then d
    else
      let freed := node :: freeNodes d.links d.live.length (d.links node).first
      { d with links := Siblings.unlink d.links node, live := d.live.filter (· ∉ freed) }

/-! ## Elements -/

/-- `moo_markup_get_root_element`; the name may be `NULL`. -/
def getRootElement (name : Option String) : Option ℕ :=
  (d.childrenOf d.doc).find? fun child =>
    d.isElement child && name.all ((d.data child).name = ·)

/-- `moo_markup_create_root_element` -/
def createRootElement (name : String) : ℕ × MooMarkupDoc :=
  match d.getRootElement (some name) with
  | some elm => (elm, d)
  | none => d.elementNew mem d.doc name []

/-- `create_element` -/
def createElementIn (d : MooMarkupDoc) (node : ℕ) : List String → Option (ℕ × MooMarkupDoc)
  | [] => none
  | [name] => some (d.elementNew mem node name [])
  | name :: rest =>
    match (d.childrenOf node).find? fun child => d.isElement child && (d.data child).name = name with
    | some child => createElementIn d child rest
    | none =>
      let created := d.elementNew mem node name []
      createElementIn created.2 created.1 rest

/-- `moo_markup_create_element`; `NULL` comes with the document as it is. -/
def createElement (parent : ℕ) (path : String) : Option ℕ × MooMarkupDoc :=
  match (d.data parent).type with
  | .element | .doc =>
    match d.createElementIn mem parent (splitPath path) with
    | none => (none, d)
    | some (elm, d) => (some elm, d)
  | .text | .comment => (none, d)

/-- `g_utf8_validate` -/
def utf8Validate (s : List UInt8) : Bool := (Utf8.decode s).isSome

/-- The content of an element is assigned. -/
def assignContent (elm : ℕ) (content : Option (List UInt8)) : MooMarkupDoc :=
  { d with data := update d.data elm { d.data elm with content := content } }

/-- `moo_markup_create_text_element` -/
def createTextElement (parent : ℕ) (path : String) (content : Option (List UInt8)) :
    Option ℕ × MooMarkupDoc :=
  if content.all utf8Validate then
    match d.createElement mem parent path with
    | (none, d) => (none, d)
    | (some elm, d) =>
      let content := content.getD []
      (some elm, (d.textNodeNew mem .text elm content).2.assignContent elm (some content))
  else (none, d)

/-- The attributes with one of them set or taken away. -/
def setAttr (name : String) (val : Option (List UInt8)) :
    List (String × List UInt8) → List (String × List UInt8)
  | [] =>
    match val with
    | some v => [(name, v)]
    | none => []
  | attr :: rest =>
    if attr.1 = name then
      match val with
      | some v => (attr.1, v) :: rest
      | none => rest
    else attr :: setAttr name val rest

/-- `moo_markup_set_prop`; without a value the property is removed. -/
def setProp (elm : ℕ) (name : String) (val : Option (List UInt8)) : MooMarkupDoc :=
  if d.isElement elm && val.all utf8Validate then
    { d with
      data := update d.data elm { d.data elm with attrs := setAttr name val (d.data elm).attrs }
      modified := true }
  else d

/-- `while (node->children) moo_markup_delete_node (node->children)` -/
def deleteChildren : ℕ → MooMarkupDoc → ℕ → MooMarkupDoc
  | 0, d, _ => d
  | n + 1, d, node =>
    match (d.links node).first with
    | none => d
    | some child => deleteChildren n (d.deleteNode child) node

/-- `moo_markup_set_content` -/
def setContent (node : ℕ) (content : Option (List UInt8)) : MooMarkupDoc :=
  if d.isElement node then
    let d := d.assignContent node content
    let d := deleteChildren d.live.length d node
    match content with
    | none => d
    | some text => (d.textNodeNew mem .text node text).2
  else d

/-! ## Calls -/

/-- A call. -/
inductive Call
  | createRootElement (name : String)
  | createElement (parent : ℕ) (path : String)
  | createTextElement (parent : ℕ) (path : String) (content : Option (List UInt8))
  | setProp (elm : ℕ) (name : String) (val : Option (List UInt8))
  | setContent (node : ℕ) (content : Option (List UInt8))
  | deleteNode (node : ℕ)

/-- The node that a call is given. -/
def Call.node (c : Call) : Option ℕ :=
  match c with
  | .createRootElement _ => none
  | .createElement node _ | .createTextElement node _ _ | .setProp node _ _ | .setContent node _
  | .deleteNode node => some node

/-- What a call does. -/
def step : Call → MooMarkupDoc
  | .createRootElement name => (d.createRootElement mem name).2
  | .createElement parent path => (d.createElement mem parent path).2
  | .createTextElement parent path content => (d.createTextElement mem parent path content).2
  | .setProp elm name val => d.setProp elm name val
  | .setContent node content => d.setContent mem node content
  | .deleteNode node => d.deleteNode node

end MooMarkupDoc

end Medit
