import Medit.Library.MarkupTree
import Medit.Markup.Tree

/-!
# Writing and parsing markup

Translation of `moo_markup_write_pretty` and of the handlers that a parser calls. What is written are
pieces without escapes, and a parser reports the pieces: it joins texts, leaves out those outside of
elements, and may give a text in several calls.

## Main definitions

* `MooMarkupDoc.writePretty` — the pieces that are written.
* `Reported` — what a parser reports of pieces.
* `MooMarkupDoc.parseEvent`, `MooMarkupDoc.parse` — a document is made of what is reported.
-/

namespace Medit

open LinkedForest Function

/-- A piece of what is written. -/
inductive Written
  | start (name : String) (attrs : List (String × List UInt8))
  | stop
  | text (s : List UInt8)
  | passthrough (s : List UInt8)
deriving DecidableEq

/-- `g_strnfill` with blanks -/
def blanks (n : ℕ) : List UInt8 := List.replicate n 32

/-- A line ends. -/
def newline : List UInt8 := [10]

/-- The indentation one level deeper, which is a `guint`. -/
def deeper (size indent : ℕ) : ℕ := (indent + size) % 2 ^ 32

namespace MooMarkupDoc

/-- `write_pretty_element` -/
def writePrettyElement (d : MooMarkupDoc) (size : ℕ) : ℕ → ℕ → ℕ → List Written
  | 0, _, _ => []
  | n + 1, indent, elm =>
    let children := d.childrenOf elm
    let node := d.data elm
    let isdir := children.any d.isElement
    let empty := !isdir && (children = [] || node.content.isNone)
    [.text (blanks indent), .start node.name node.attrs] ++
      (if empty then [.stop, .text newline]
      else if isdir then
        .text newline :: ((children.filter d.isElement).flatMap
          (d.writePrettyElement size n (deeper size indent)) ++
            [.text (blanks indent), .stop, .text newline])
      else [.text (node.content.getD []), .stop, .text newline])

/-- The declaration at the beginning of a file. -/
def declaration : List UInt8 := "<?xml version=\"1.0\" encoding=\"UTF-8\"?>".toUTF8.toList

/-- The comment after it. -/
def modeComment : List UInt8 := "<!-- -*- xml -*- -->".toUTF8.toList

/-- The first line of a file. -/
def header : List Written := [.passthrough declaration, .passthrough modeComment, .text newline]

/-- `moo_markup_write_pretty` -/
def writePretty (d : MooMarkupDoc) (size : ℕ) : List Written :=
  header ++ ((d.childrenOf d.doc).filter d.isElement).flatMap
    (d.writePrettyElement size d.live.length 0)

end MooMarkupDoc

/-! ## The parser -/

/-- What a parser says of pieces at a depth of elements, after the text `acc`. -/
def report : ℕ → List UInt8 → List Written → List Written
  | depth, acc, [] => if depth = 0 ∨ acc = [] then [] else [.text acc]
  | depth, acc, .text s :: rest => report depth (acc ++ s) rest
  | depth, acc, .start name attrs :: rest =>
    (if depth = 0 ∨ acc = [] then [] else [.text acc]) ++ .start name attrs :: report (depth + 1) [] rest
  | depth, acc, .stop :: rest =>
    (if depth = 0 ∨ acc = [] then [] else [.text acc]) ++ .stop :: report (depth - 1) [] rest
  | depth, acc, .passthrough s :: rest =>
    (if depth = 0 ∨ acc = [] then [] else [.text acc]) ++ .passthrough s :: report depth [] rest

/-- The same events, with texts in pieces. -/
inductive Pieces : List Written → List Written → Prop
  | nil : Pieces [] []
  | text {pieces : List (List UInt8)} {events events' : List Written} (h : Pieces events events') :
    Pieces (.text pieces.flatten :: events) (pieces.map .text ++ events')
  | cons {e : Written} {events events' : List Written} (h : Pieces events events') :
    Pieces (e :: events) (e :: events')

/-- What a parser may report of pieces. -/
def Reported (written events : List Written) : Prop := Pieces (report 0 [] written) events

namespace MooMarkupDoc

variable (mem : KeyedQueue.Allocator) (d : MooMarkupDoc)

/-- The last child is of a type. -/
def lastIs (type : MooMarkupNodeType) (node : ℕ) : Option ℕ :=
  match (d.links node).last with
  | none => none
  | some last => if (d.data last).type = type then some last else none

/-- `collect_text_content` -/
def collectTextContent (node : ℕ) : MooMarkupDoc :=
  let texts := (d.childrenOf node).filter fun child => (d.data child).type = .text
  d.assignContent node
    (if texts = [] then none else some (texts.flatMap fun child => (d.data child).text))

/-- A text or a comment goes on, or is a new node. -/
def addText (type : MooMarkupNodeType) (current : ℕ) (s : List UInt8) : MooMarkupDoc :=
  match d.lastIs type current with
  | some last => d.textNodeAddText last s
  | none => (d.textNodeNew mem type current s).2

/-- A comment has two dashes inside. -/
def invalidComment (s : List UInt8) : Bool :=
  7 ≤ s.length && "<!--".toUTF8.toList.isPrefixOf s &&
    ((s.drop 4).take (s.length - 7)).tails.any ("--".toUTF8.toList.isPrefixOf ·)

/-- `start_element`, `end_element`, `text` and `passthrough`, with the current element. -/
def parseEvent : MooMarkupDoc × ℕ → Written → Option (MooMarkupDoc × ℕ)
  | (d, current), .start name attrs =>
    let created := d.elementNew mem current name attrs
    some (created.2, created.1)
  | (d, current), .stop =>
    if d.isElement current then
      let d := d.collectTextContent current
      (d.links current).parent.map fun parent => (d, parent)
    else none
  | (d, current), .text s => some (d.addText mem .text current s, current)
  | (d, current), .passthrough s =>
    if invalidComment s then none else some (d.addText mem .comment current s, current)

/-- `markup_parse_memory` -/
def parse (events : List Written) : Option MooMarkupDoc :=
  let d := { new mem "" with modified := true }
  (events.foldlM (parseEvent mem) (d, d.doc)).map Prod.fst

end MooMarkupDoc

end Medit
