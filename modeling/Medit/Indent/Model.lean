import Medit.Library.TabStops

/-!
# Indentation

Translation of `mooedit/mooindenter.cpp`. A line is its characters without the end of the line, and
an iterator in it is the number of characters before it. Widths and offsets are numbers without a
bound.

## Main definitions

* `MooIndenter` — the settings.
* `MooIndenter.makeSpace` — `moo_indenter_make_space`.
* `MooIndenter.tab` — `moo_indenter_tab`.
* `MooIndenter.shiftLineForward`, `MooIndenter.shiftLineBackward` — the shifts of a line.
-/

namespace Medit

/-- The settings of a `MooIndenter`. Neither width can be set to zero. -/
structure MooIndenter where
  useTabs : Bool
  tabWidth : ℕ
  indent : ℕ
  tabWidth_pos : 0 < tabWidth
  indent_pos : 0 < indent

/-- `compute_line_offset`: whether there is something else than white space, the offset, and the
number of characters passed. -/
def computeLineOffset (tabWidth : ℕ) : ℕ → List Char → Bool × ℕ × ℕ
  | offset, [] => (false, offset, 0)
  | offset, c :: line =>
    if c = ' ' then
      let (text, offset, passed) := computeLineOffset tabWidth (offset + 1) line
      (text, offset, passed + 1)
    else if c = '\t' then
      let add := tabWidth - offset % tabWidth
      let (text, offset, passed) := computeLineOffset tabWidth (offset + add) line
      (text, offset, passed + 1)
    else (true, offset, 0)

/-- The variables of the loop of `iter_get_visual_offset`. -/
structure VisualOffset where
  offset : ℕ
  whiteSpace : ℕ
  whiteSpaceStart : ℕ
deriving DecidableEq

/-- A round of the loop, at the character number `start`. -/
def VisualOffset.next (tabWidth : ℕ) (v : VisualOffset) (start : ℕ) (c : Char) : VisualOffset :=
  let v :=
    if c = ' ' ∨ c = '\t' then
      if v.whiteSpace = 0 then { v with whiteSpaceStart := start } else v
    else { v with whiteSpace := 0 }
  if c = '\t' then
    let add := tabWidth - v.offset % tabWidth
    { v with offset := v.offset + add, whiteSpace := v.whiteSpace + add }
  else if c = ' ' then { v with offset := v.offset + 1, whiteSpace := v.whiteSpace + 1 }
  else { v with offset := v.offset + 1 }

/-- The loop over the characters before the iterator. -/
def visualOffsetLoop (tabWidth : ℕ) : ℕ → List Char → VisualOffset → VisualOffset
  | _, [], v => v
  | start, c :: line, v => visualOffsetLoop tabWidth (start + 1) line (v.next tabWidth start c)

/-- `iter_get_visual_offset`: the offset, the white space and the new iterator. -/
def iterGetVisualOffset (tabWidth : ℕ) (line : List Char) (iter : ℕ) : ℕ × ℕ × ℕ :=
  let v := visualOffsetLoop tabWidth 0 (line.take iter) ⟨0, 0, 0⟩
  (v.offset, v.whiteSpace, if v.whiteSpace ≠ 0 then v.whiteSpaceStart else iter)

namespace MooIndenter

variable (indenter : MooIndenter)

/-- `moo_indenter_make_space`, which is NULL for no space. -/
def makeSpace (len start : ℕ) : Option (List Char) :=
  if len = 0 then none
  else if !indenter.useTabs then some (List.replicate len ' ')
  else
    let delta := start % indenter.tabWidth
    let (tabs, spaces) :=
      if delta = 0 then (len / indenter.tabWidth, len % indenter.tabWidth)
      else if len < indenter.tabWidth - delta then (0, len)
      else if len = indenter.tabWidth - delta then (1, 0)
      else
        let len := len - (indenter.tabWidth - delta)
        (len / indenter.tabWidth + 1, len % indenter.tabWidth)
    some (List.replicate tabs '\t' ++ List.replicate spaces ' ')

/-- `moo_indenter_tab` on the line with the cursor: the line and the cursor after it. -/
def tab (line : List Char) (insert : ℕ) : List Char × ℕ :=
  let (offset, whiteSpace, start) := iterGetVisualOffset indenter.tabWidth line insert
  let newOffset := offset + (indenter.indent - offset % indenter.indent)
  let text := (indenter.makeSpace (newOffset - offset + whiteSpace) (offset - whiteSpace)).getD []
  (line.take start ++ text ++ line.drop insert, start + text.length)

/-- `shift_line_forward` -/
def shiftLineForward (line : List Char) : List Char :=
  match computeLineOffset indenter.tabWidth 0 line with
  | (false, _, _) => line
  | (true, offset, iter) =>
    let (line, iter) := if offset ≠ 0 then (line.drop iter, 0) else (line, iter)
    match indenter.makeSpace (offset + indenter.indent) 0 with
    | some text => line.take iter ++ text ++ line.drop iter
    | none => line

/-- The loop of `shift_line_backward`, from `deleted` on: `deleted` and the line from `end` on. -/
def deleteBlanks (tabWidth indent : ℕ) : ℕ → List Char → ℕ × List Char
  | deleted, [] => (deleted, [])
  | deleted, c :: line =>
    if c = ' ' then
      if indent ≤ deleted + 1 then (deleted + 1, line)
      else deleteBlanks tabWidth indent (deleted + 1) line
    else if c = '\t' then
      if indent ≤ deleted + tabWidth then (deleted + tabWidth, line)
      else deleteBlanks tabWidth indent (deleted + tabWidth) line
    else (deleted, c :: line)

/-- `shift_line_backward` -/
def shiftLineBackward (line : List Char) : List Char :=
  let (deleted, line) := deleteBlanks indenter.tabWidth indenter.indent 0 line
  if indenter.indent < deleted then
    (indenter.makeSpace (deleted - indenter.indent) 0).getD [] ++ line
  else line

end MooIndenter

end Medit
