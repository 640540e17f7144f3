import Mathlib.Algebra.BigOperators.Group.List.Basic
import Mathlib.Data.Int.Init
import Mathlib.Data.List.Chain
import Medit.Library.TextEdits

/-!
# Replacing in batches

The replacements of `mootextsearch.cpp`, which are collected first and then made with one change of
the buffer for each run of matches on one line.

## Main definitions

* `GtkBuffer` — the text of a buffer, the cursor and the selection bound.
* `BatchMatch`, `batchAdd`, `batchAddIters` — the matches and what replaces them.
* `batchApply` — `batch_apply`.
-/

namespace Medit

open TextEdits

/-! ## Buffers -/

/-- Where a mark goes when the text from `start` to `stop` is deleted. -/
def markAfterDelete (start stop mark : ℕ) : ℕ :=
  if mark ≤ start then mark else if mark ≤ stop then start else mark - (stop - start)

/-- Where a mark goes when `n` characters are inserted at `pos`. -/
def markAfterInsert (leftGravity : Bool) (pos n mark : ℕ) : ℕ :=
  if mark < pos ∨ (leftGravity ∧ mark = pos) then mark else mark + n

/-- The text of a `GtkTextBuffer` with the offsets of its marks `insert` and `selection_bound`. -/
structure GtkBuffer where
  text : List Char
  insert : ℕ
  selectionBound : ℕ
  deriving DecidableEq, Repr

namespace GtkBuffer

/-- `gtk_text_buffer_delete` -/
def deleteRange (b : GtkBuffer) (start stop : ℕ) : GtkBuffer where
  text := b.text.take start ++ b.text.drop stop
  insert := markAfterDelete start stop b.insert
  selectionBound := markAfterDelete start stop b.selectionBound

/-- `gtk_text_buffer_insert` -/
def insertText (b : GtkBuffer) (pos : ℕ) (t : List Char) : GtkBuffer where
  text := b.text.take pos ++ (t ++ b.text.drop pos)
  insert := markAfterInsert false pos t.length b.insert
  selectionBound := markAfterInsert false pos t.length b.selectionBound

/-- `gtk_text_buffer_get_iter_at_offset`, which takes the end for an offset that is not in the text. -/
def iterAtOffset (b : GtkBuffer) (offset : ℤ) : ℕ :=
  if 0 ≤ offset ∧ offset ≤ b.text.length then offset.toNat else b.text.length

/-- `gtk_text_buffer_select_range` -/
def selectRange (b : GtkBuffer) (insert bound : ℕ) : GtkBuffer :=
  { b with insert := insert, selectionBound := bound }

/-- `gtk_text_buffer_get_slice` -/
def slice (b : GtkBuffer) (start stop : ℕ) : List Char := (b.text.take stop).drop start

end GtkBuffer

/-! ## Matches -/

structure BatchMatch where
  start : ℕ
  stop : ℕ
  text : List Char
  gap : Option (List Char)
  deriving DecidableEq, Repr

/-- `batch_add` -/
def batchAdd (ms : List BatchMatch) (start stop : ℕ) (text : List Char) (gap : Option (List Char)) :
    List BatchMatch := ms ++ [⟨start, stop, text, gap⟩]

/-- `batch_add_iters`; the line of an offset is `line`. -/
def batchAddIters (line : ℕ → ℕ) (ms : List BatchMatch) (b : GtkBuffer) (prevEnd : Option ℕ)
    (start stop : ℕ) (text : List Char) : List BatchMatch :=
  batchAdd ms start stop text <|
    prevEnd.bind fun prevEnd => if line prevEnd = line start then some (b.slice prevEnd start) else none

/-- The runs of matches that `batch_apply` goes through: a match with a gap joins the one before. -/
def batchRuns : List BatchMatch → List (BatchMatch × List BatchMatch)
  | [] => []
  | m :: ms =>
    match batchRuns ms with
    | [] => [(m, [])]
    | (m', ms') :: runs =>
      if m'.gap.isSome then (m, m' :: ms') :: runs else (m, []) :: (m', ms') :: runs

/-! ## Groups -/

/-- The end of the last match of a run. -/
def runStop (m : BatchMatch) (ms : List BatchMatch) : ℕ := ((m :: ms).getLast (by simp)).stop

/-- `group.text` -/
def groupText (m : BatchMatch) (ms : List BatchMatch) : List Char :=
  m.text ++ ms.flatMap fun k => k.gap.getD [] ++ k.text

/-- `BatchGroup` -/
def batchGroup (run : BatchMatch × List BatchMatch) : Edit Char where
  start := run.1.start
  stop := runStop run.1 run.2
  text := groupText run.1 run.2

/-- `out_chars`: each match of a run with the characters of the new text in front of its replacement,
and last the characters of the new text. -/
def outChars (chars : ℤ) (m : BatchMatch) : List BatchMatch → List (BatchMatch × ℤ) × ℤ
  | [] => ([(m, chars)], chars + m.text.length)
  | k :: ms =>
    let (out, total) := outChars (chars + m.text.length + (k.start - m.stop)) k ms
    ((m, chars) :: out, total)

/-- `batch_cursor_in_group`; `prev` is the match before. -/
def batchCursorInGroup (old : ℕ) : Option BatchMatch → List (BatchMatch × ℤ) → ℤ
  | _, [] => 0
  | prev, (m, chars) :: out =>
    if prev.any fun k => k.stop ≤ old ∧ old ≤ m.start then chars - (m.start - old)
    else if m.start < old ∧ old < m.stop then chars
    else batchCursorInGroup old (some m) out

/-- What one group does to the shift of what follows it and to a cursor. -/
def moveCursor (old : ℕ) (shiftOffset : ℤ × ℤ) (run : BatchMatch × List BatchMatch) : ℤ × ℤ :=
  let (shift, offset) := shiftOffset
  let group := batchGroup run
  let (out, chars) := outChars 0 run.1 run.2
  let delta := chars - (group.stop - group.start)
  let offset :=
    if old ≥ group.stop then offset + delta
    else if old > group.start then group.start + shift + batchCursorInGroup old none out
    else offset
  (shift + delta, offset)

/-- Where a cursor is in the new text. -/
def cursorOffset (ms : List BatchMatch) (old : ℕ) : ℤ :=
  ((batchRuns ms).foldl (moveCursor old) (0, (old : ℤ))).2

/-- `batch_apply` -/
def batchApply (b : GtkBuffer) (ms : List BatchMatch) : GtkBuffer :=
  if ms = [] then b
  else
    let groups := (batchRuns ms).map batchGroup
    let b' := groups.foldr (fun g b => (b.deleteRange g.start g.stop).insertText g.start g.text) b
    b'.selectRange (b'.iterAtOffset (cursorOffset ms b.insert))
      (b'.iterAtOffset (cursorOffset ms b.selectionBound))

example : batchApply ⟨['f', 'o', 'o', ' ', 'f', 'o', 'o'], 5, 1⟩
    [⟨0, 3, ['x'], none⟩, ⟨4, 7, ['x'], some [' ']⟩] = ⟨['x', ' ', 'x'], 2, 0⟩ := by decide

end Medit
