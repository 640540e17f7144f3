import Medit.Library.TextLines
import Medit.TextBtree.Model

/-!
# The line buffer

Translation of `mooedit/moolinebuffer.cpp` and of what `mootextbuffer.cpp` and
`moolinemark.cpp` do with line marks. A `LineBuffer` is its tree. The arrays `marks` of the
lines hold the marks, and a mark refers back to its line and remembers the number the line had
at some stamp of the tree.

The text is the one of the `GtkTextBuffer`, whose lines end at `'\n'`; an iterator is the offset
of its character.

## Main definitions

* `BTree.splitLine`, `BTree.deleteLines`, `BTree.addMark`, `BTree.removeMark`, `BTree.moveMark`,
  `BTree.getMarksInRange` — the line buffer.
* `MarkBuffer` — a text with its line buffer.
* `MarkBuffer.insertText`, `MarkBuffer.deleteRange`, `MarkBuffer.addLineMark`,
  `MarkBuffer.deleteLineMark`, `MarkBuffer.moveLineMark`.
-/

namespace Medit

open Function (update)

namespace BTree

/-! ## Fields of a mark and of a line -/

/-- `_moo_line_mark_set_line` -/
def setMarkLine (t : BTree) (mark : MarkPtr) (line : Option Ptr) (lineNo : ℤ) (stamp : ℕ) :
    Option BTree := do
  gAssert (line = none ∨ (t.mark mark).buffer = true)
  return { t with mark := update t.mark mark ((t.mark mark).setLine line lineNo stamp) }

/-- `_moo_line_mark_set_buffer`, with the buffer or with `NULL` -/
def setMarkBuffer (t : BTree) (mark : MarkPtr) (buffer : Bool) : Option BTree := do
  gAssert (buffer = false ∨ (t.mark mark).buffer = false)
  let t := { t with mark := update t.mark mark { t.mark mark with buffer := buffer } }
  if buffer then return t else t.setMarkLine mark none (-1) 0

/-- `line->marks = marks` -/
def setMarks (t : BTree) (line : Ptr) (marks : List MarkPtr) : BTree :=
  { t with marks := update t.marks line marks }

/-! ## Lines -/

/-- `_moo_line_buffer_get_line` -/
def getLine (t : BTree) (index : ℤ) : Option Ptr := t.getData (guint index)

/-- `_moo_line_buffer_split_line` -/
def splitLine (t : BTree) (line numNewLines : ℤ) : Option BTree := do
  gAssert (numNewLines ≠ 0)
  t.insertRange (line + 1) numNewLines

/-- The walk up of `line_get_index`: adds what is left of `node` in every node above. -/
def indexAbove (t : BTree) : ℕ → Ptr → Bool → ℕ → Option ℕ
  | 0, _, _, _ => none
  | fuel + 1, node, bottom, index =>
    match t.parent node with
    | none => some index
    | some parent => do
      let i ← t.nodeGetIndex parent node
      let left := (t.children parent).take i
      t.indexAbove fuel parent false
        (index + if bottom then left.length else (left.map t.count).sum)

/-- `_moo_line_buffer_get_line_index` -/
def getLineIndex (t : BTree) (line : Ptr) : Option ℤ := do
  let index ← t.indexAbove (t.depth + 2) line true 0
  gAssert (t.getLine (toInt index) = some line)
  return toInt index

/-- `moo_line_mark_get_line` -/
def getMarkLine (t : BTree) (mark : MarkPtr) : Option (BTree × ℤ) :=
  match (t.mark mark).line with
  | none => some (t, -1)
  | some line =>
    if t.stamp ≠ (t.mark mark).stamp then do
      let lineNo ← t.getLineIndex line
      return ({ t with
        mark := update t.mark mark { t.mark mark with lineNo := lineNo, stamp := t.stamp } }, lineNo)
    else some (t, (t.mark mark).lineNo)

/-! ## Marks -/

/-- The part of `_moo_line_buffer_delete` before the lines are deleted: the marks of a line
are taken away from it. -/
def takeMarks (t : BTree) (index : ℤ) : Option (BTree × List MarkPtr) := do
  let line ← t.getLine index
  let oldMarks := t.marksOf line
  let t := t.setMarks line []
  let t ← if oldMarks ≠ [] then t.updateNMarks line (-toInt oldMarks.length) else some t
  gAssert (t.nMarks line = 0)
  return (t, oldMarks)

/-- The part after the lines are deleted: the line `moveTo` gets them. -/
def giveMarks (t : BTree) (moveTo : ℤ) (oldMarks : List MarkPtr) : Option BTree := do
  let line ← t.getLine moveTo
  if oldMarks ≠ [] then do
    let t := t.setMarks line (t.marksOf line ++ oldMarks)
    let t ← oldMarks.foldlM (fun t mark => t.setMarkLine mark (some line) moveTo t.stamp) t
    t.updateNMarks line (toInt oldMarks.length)
  else some t

/-- `_moo_line_buffer_delete`; the lists are the moved and the deleted marks. -/
def deleteLines (t : BTree) (first num moveTo : ℤ) (moved deleted : List MarkPtr) :
    Option (BTree × List MarkPtr × List MarkPtr) :=
  if 0 ≤ moveTo then do
    let (t, oldMarks) ← t.takeMarks (first + num - 1)
    let (t, deleted) ← t.deleteRange first num deleted
    let t ← t.giveMarks moveTo oldMarks
    return (t, oldMarks.reverse ++ moved, deleted)
  else do
    let (t, deleted) ← t.deleteRange first num deleted
    return (t, moved, deleted)

/-- `line_add_mark` -/
def lineAddMark (t : BTree) (mark : MarkPtr) (line : Ptr) : Option BTree :=
  (t.setMarks line (t.marksOf line ++ [mark])).updateNMarks line 1

/-- `_moo_line_buffer_add_mark` -/
def addMark (t : BTree) (mark : MarkPtr) (index : ℤ) : Option BTree :=
  if index < toInt t.size then do
    gAssert ((t.mark mark).line = none)
    let line ← t.getLine index
    let t ← t.lineAddMark mark line
    t.setMarkLine mark (some line) index t.stamp
  else some t

/-- `line_remove_mark` -/
def lineRemoveMark (t : BTree) (mark : MarkPtr) (line : Ptr) : Option BTree := do
  gAssert (t.marks line ≠ [])
  let i ← (t.marksOf line).idxOf? mark
  (t.setMarks line ((t.marksOf line).eraseIdx i)).updateNMarks line (-1)

/-- `_moo_line_buffer_remove_mark` -/
def removeMark (t : BTree) (mark : MarkPtr) : Option BTree := do
  let line ← (t.mark mark).line
  let (t, lineNo) ← t.getMarkLine mark
  gAssert (t.getLine lineNo = some line)
  let t ← t.setMarkLine mark none (-1) 0
  t.lineRemoveMark mark line

/-- `_moo_line_buffer_move_mark` -/
def moveMark (t : BTree) (mark : MarkPtr) (line : ℤ) : Option BTree :=
  if line < toInt t.size then do
    let t ← t.removeMark mark
    t.addMark mark line
  else some t

/-! ## The marks of some lines -/

/-- One line of the loop of `node_get_marks`: each mark learns its line number and is put in front of
the list. -/
def lineGetMarks (t : BTree) (line : Ptr) (lineNo : ℤ) (total : List MarkPtr) :
    Option (BTree × List MarkPtr) :=
  (t.marksOf line).foldlM (fun (s : BTree × List MarkPtr) mark => do
    let t ← s.1.setMarkLine mark (some line) lineNo s.1.stamp
    return (t, mark :: s.2)) (t, total)

/-- The loop over the lines of a bottom node, from the line `lineNo` on. -/
def linesGetMarks (t : BTree) (lastLine : ℤ) : List Ptr → ℤ → List MarkPtr →
    Option (BTree × List MarkPtr)
  | [], _, total => some (t, total)
  | line :: lines, lineNo, total =>
    if lastLine < lineNo then some (t, total)
    else do
      let (t, total) ← t.lineGetMarks line lineNo total
      t.linesGetMarks lastLine lines (lineNo + 1) total

/-- The loop of `node_get_marks` over the nodes below; `getMarks` is the recursive call. -/
def childrenGetMarks (getMarks : BTree → Ptr → ℤ → Option (BTree × List MarkPtr)) (lastLine : ℤ) :
    BTree → List Ptr → ℤ → List MarkPtr → Option (BTree × List MarkPtr)
  | t, [], _, total => some (t, total)
  | t, child :: children, nodeOffset, total => do
    let (t, childList) ← if t.nMarks child ≠ 0 then getMarks t child nodeOffset else some (t, [])
    let total := childList ++ total
    let nodeOffset := nodeOffset + t.count child
    if lastLine < nodeOffset then some (t, total)
    else childrenGetMarks getMarks lastLine t children nodeOffset total

/-- `node_get_marks` -/
def nodeGetMarks (firstLine lastLine : ℤ) : ℕ → BTree → Ptr → ℤ → Option (BTree × List MarkPtr)
  | 0, _, _, _ => none
  | fuel + 1, t, node, nodeOffset =>
    if t.nMarks node = 0 then some (t, [])
    else if lastLine < nodeOffset ∨ nodeOffset + t.count node ≤ firstLine then some (t, [])
    else if t.isBottom node then
      let i := (max (firstLine - nodeOffset) 0).toNat
      t.linesGetMarks lastLine ((t.children node).drop i) (i + nodeOffset) []
    else
      childrenGetMarks (nodeGetMarks firstLine lastLine fuel) lastLine t (t.children node) nodeOffset []

/-- `_moo_line_buffer_get_marks_in_range` -/
def getMarksInRange (t : BTree) (firstLine lastLine : ℤ) : Option (BTree × List MarkPtr) := do
  let size := toInt t.size
  gAssert (0 ≤ firstLine)
  if firstLine < size then do
    let lastLine := if lastLine < 0 ∨ size ≤ lastLine then size - 1 else lastLine
    if firstLine ≤ lastLine then do
      let (t, marks) ← nodeGetMarks firstLine lastLine (t.depth + 1) t t.root 0
      return (t, marks.reverse)
    else some (t, [])
  else some (t, [])

end BTree

/-! ## The text -/

/-- A text with its line buffer. -/
structure MarkBuffer where
  text : List Char
  lineBuf : BTree

namespace MarkBuffer

open TextLines

/-- `gtk_text_buffer_get_line_count` -/
def lineCount (b : MarkBuffer) : ℕ := b.text.count '\n' + 1

/-- An empty buffer. -/
def new : MarkBuffer := ⟨[], BTree.new⟩

/-- `moo_text_buffer_move_line_mark` -/
def moveLineMark (t : BTree) (mark : MarkPtr) (line : ℤ) : Option BTree :=
  if (t.mark mark).buffer then do
    let (t, oldLine) ← t.getMarkLine mark
    if oldLine = line then some t else t.moveMark mark line
  else some t

/-- The new lines of `moo_text_buffer_insert_text`. -/
def insertLines (t : BTree) (firstLine lastLine : ℕ) : Option BTree :=
  if lastLine ≠ firstLine then t.splitLine firstLine (lastLine - firstLine) else some t

/-- The marks of a line that is pushed down by `moo_text_buffer_insert_text` go with it. -/
def pushMarks (t : BTree) (startsLine insLine : Bool) (firstLine lastLine : ℕ) : Option BTree :=
  if startsLine && insLine then do
    let (t, marks) ← t.getMarksInRange firstLine firstLine
    marks.foldlM (fun t mark => moveLineMark t mark lastLine) t
  else some t

/-- `moo_text_buffer_insert_text`; `pos` is the offset of the iterator. -/
def insertText (b : MarkBuffer) (pos : ℕ) (text : List Char) : Option MarkBuffer :=
  match text with
  | [] => some b
  | c :: _ => do
    let firstLine := lineOf '\n' b.text pos
    let startsLine := startsLine '\n' b.text pos
    let insLine := c == '\n' || c == '\r'
    let newText := b.text.take pos ++ text ++ b.text.drop pos
    let lastLine := lineOf '\n' newText (pos + text.length)
    let t ← insertLines b.lineBuf firstLine lastLine
    let t ← pushMarks t startsLine insLine firstLine lastLine
    return ⟨newText, t⟩

/-- `marks_moved_or_deleted`: the deleted marks lose the buffer. -/
def marksMovedOrDeleted (t : BTree) (deleted : List MarkPtr) : Option BTree :=
  deleted.foldlM (fun t mark => t.setMarkBuffer mark false) t

/-- The lines that `moo_text_buffer_delete_range` deletes; the lists are the moved and the deleted
marks. -/
def removeLines (t : BTree) (startsLine : Bool) (firstLine lastLine : ℕ) :
    Option (BTree × List MarkPtr × List MarkPtr) :=
  if firstLine < lastLine then
    if startsLine then t.deleteLines firstLine (lastLine - firstLine) (-1) [] []
    else t.deleteLines (firstLine + 1) (lastLine - firstLine) firstLine [] []
  else some (t, [], [])

/-- `moo_text_buffer_delete_range`; the lists are `moved_marks` and `deleted_marks`. -/
def deleteRange (b : MarkBuffer) (start stop : ℕ) :
    Option (MarkBuffer × List MarkPtr × List MarkPtr) :=
  let (start, stop) := if stop < start then (stop, start) else (start, stop)
  if start = stop then some (b, [], [])
  else do
    let firstLine := lineOf '\n' b.text start
    let lastLine := lineOf '\n' b.text stop
    let (t, moved, deleted) ← removeLines b.lineBuf (startsLine '\n' b.text start) firstLine lastLine
    let t ← marksMovedOrDeleted t deleted
    return (⟨b.text.take start ++ b.text.drop stop, t⟩, moved, deleted)

/-- `moo_text_buffer_add_line_mark` -/
def addLineMark (b : MarkBuffer) (mark : MarkPtr) (lineNo : ℤ) : Option MarkBuffer :=
  if (b.lineBuf.mark mark).buffer then some b
  else do
    let lineNo := if lineNo < 0 ∨ b.lineCount ≤ lineNo then 0 else lineNo
    let _ ← b.lineBuf.getLine lineNo
    let t ← b.lineBuf.setMarkBuffer mark true
    let t ← t.addMark mark lineNo
    return { b with lineBuf := t }

/-- `moo_text_buffer_delete_line_mark` -/
def deleteLineMark (b : MarkBuffer) (mark : MarkPtr) : Option MarkBuffer :=
  if (b.lineBuf.mark mark).buffer then do
    let t ← b.lineBuf.removeMark mark
    let t ← t.setMarkBuffer mark false
    return { b with lineBuf := t }
  else some b

end MarkBuffer

end Medit
