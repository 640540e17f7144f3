import Mathlib.Data.Int.Notation
import Medit.Library.Utf8

/-!
# Edits of a text buffer and their undo stack

Translation of `mooutils/mooundo.cpp` and of the edit actions in `mooedit/mootextbuffer.cpp`. The
stack knows actions by their type only, and `MooTextBuffer` has two types, `InsertAction` and
`DeleteAction`.

`GtkTextBuffer` is a list of characters without zeros, as it refuses other text; offsets past the
end are taken as the end. It sets its modified flag on every change of the text. Actions are in
memory: what `modifying_action` is compared with is an address.

## Main definitions

* `TextBuffer` — the buffer with its undo stack.
* `TextBuffer.addAction` — `moo_undo_stack_add_action`, with merging of actions.
* `TextBuffer.insertText`, `TextBuffer.deleteRange`, `TextBuffer.undo`, `TextBuffer.redo`.
-/

namespace Medit

/-- Addresses of `EditAction` objects. -/
abbrev ActionPtr := ℕ

/-- `text` are the first `len` bytes of the string. -/
structure EditAction where
  text : List UInt8
  interactive : Bool
  mergeable : Bool
deriving DecidableEq

structure InsertAction extends EditAction where
  pos : ℕ
  length : ℕ
  chars : ℕ
deriving DecidableEq

/-- `stop` is `end`. -/
structure DeleteAction extends EditAction where
  start : ℕ
  stop : ℕ
  forward : Bool
deriving DecidableEq

/-- An action under the type it is registered with. -/
inductive UndoAction where
  | insert (a : InsertAction)
  | delete (a : DeleteAction)
deriving DecidableEq

/-- `Wrapper`, with the address of the action. -/
structure Wrapper where
  addr : ActionPtr
  action : UndoAction
deriving DecidableEq

/-- The head of the queue is the newest action. -/
abbrev ActionGroup := List Wrapper

/-- The parts of `MooTextBufferPrivate` that edits use, with its `MooUndoStack`. -/
structure TextBuffer where
  text : List Char
  modified : Bool
  userActionCount : ℕ
  nonInteractive : ℕ
  moveCursorTo : ℤ
  modifyingAction : Option ActionPtr
  undoStack : List ActionGroup
  redoStack : List ActionGroup
  frozen : ℕ
  continueGroup : ℕ
  doContinue : Bool
  newGroup : Bool
  /-- The next unused address. -/
  next : ActionPtr
deriving DecidableEq

/-! ## Bytes of a string -/

/-- `text[i]` of a string that ends with a zero. -/
def byteAt (text : List UInt8) (i : ℕ) : UInt8 := text.getD i 0

/-- `IS_SPACE_OR_TAB` -/
def isSpaceOrTab (c : UInt8) : Bool := c == 32 || c == 9

/-- `g_utf8_skip` -/
def utf8Skip (c : UInt8) : ℕ :=
  if c < 0xc0 then 1 else if c < 0xe0 then 2 else if c < 0xf0 then 3 else if c < 0xf8 then 4
  else if c < 0xfc then 5 else if c < 0xfe then 6 else 1

/-- `g_utf8_offset_to_pointer`: the string from the character number `offset` on. -/
def utf8OffsetToPointer : List UInt8 → ℕ → List UInt8
  | text, 0 => text
  | text, offset + 1 => utf8OffsetToPointer (text.drop (utf8Skip (byteAt text 0))) offset

/-- `g_utf8_validate` of all the bytes, and the characters. -/
def utf8Validate (text : List UInt8) : Option (List Char) :=
  if 0 ∈ text then none else Utf8.decode text

/-- `g_utf8_strlen` of valid text. -/
def utf8Strlen (text : List UInt8) : ℕ := ((Utf8.decode text).getD []).length

/-- The bytes before the first zero. -/
def cString (text : List UInt8) : List UInt8 := text.takeWhile (· ≠ 0)

/-! ## Merging -/

/-- `action_merge`: the last action, and whether the two may be merged. -/
def actionMerge (modifyingAction : Option ActionPtr) (last action : EditAction)
    (addr : ActionPtr) : EditAction × Bool :=
  if !last.mergeable then (last, false)
  else if !action.mergeable ∨ modifyingAction = some addr ∨
      action.interactive ≠ last.interactive then
    ({ last with mergeable := false }, false)
  else (last, true)

/-- `insert_action_merge` -/
def insertActionMerge (modifyingAction : Option ActionPtr) (last action : InsertAction)
    (addr : ActionPtr) : InsertAction × Bool :=
  match actionMerge modifyingAction last.toEditAction action.toEditAction addr with
  | (edit, false) => ({ last with toEditAction := edit }, false)
  | (_, true) =>
    if action.pos ≠ last.pos + last.chars ∨
        !isSpaceOrTab (byteAt action.text 0) ∧
          isSpaceOrTab (byteAt last.text (last.length - 1)) then
      ({ last with mergeable := false }, false)
    else
      ({ last with
          text := last.text ++ action.text
          length := last.length + action.length
          chars := last.chars + action.chars }, true)

/-- `delete_action_merge` -/
def deleteActionMerge (modifyingAction : Option ActionPtr) (last action : DeleteAction)
    (addr : ActionPtr) : DeleteAction × Bool :=
  match actionMerge modifyingAction last.toEditAction action.toEditAction addr with
  | (edit, false) => ({ last with toEditAction := edit }, false)
  | (_, true) =>
    if last.forward ≠ action.forward ∨ last.start ≠ action.start ∧ last.start ≠ action.stop then
      ({ last with mergeable := false }, false)
    else if last.start = action.start then
      if !isSpaceOrTab (byteAt action.text 0) ∧
          isSpaceOrTab (byteAt (utf8OffsetToPointer last.text (last.stop - last.start - 1)) 0) then
        ({ last with mergeable := false }, false)
      else
        ({ last with
            text := last.text ++ action.text
            stop := last.stop + (action.stop - action.start) }, true)
    else
      if !isSpaceOrTab (byteAt action.text 0) ∧ isSpaceOrTab (byteAt last.text 0) then
        ({ last with mergeable := false }, false)
      else ({ last with text := action.text ++ last.text, start := action.start }, true)

namespace TextBuffer

/-- `gtk_text_buffer_set_modified`, with `moo_text_buffer_modified_changed`. -/
def setModified (b : TextBuffer) (modified : Bool) : TextBuffer :=
  if modified = b.modified then b
  else { b with
    modified := modified
    modifyingAction := if modified then b.modifyingAction else none }

/-- `edit_action_destroy` -/
def editActionDestroy (b : TextBuffer) (addr : ActionPtr) : TextBuffer :=
  if b.modifyingAction = some addr then { b with modifyingAction := none } else b

/-- `action_group_merge` -/
def actionGroupMerge (b : TextBuffer) (group : ActionGroup) (w : Wrapper) :
    TextBuffer × ActionGroup × Bool :=
  match group with
  | [] => (b, group, false)
  | old :: rest =>
    match old.action, w.action with
    | .insert last, .insert action =>
      let (last, merged) := insertActionMerge b.modifyingAction last action w.addr
      (if merged then b.editActionDestroy w.addr else b,
        { old with action := .insert last } :: rest, merged)
    | .delete last, .delete action =>
      let (last, merged) := deleteActionMerge b.modifyingAction last action w.addr
      (if merged then b.editActionDestroy w.addr else b,
        { old with action := .delete last } :: rest, merged)
    | _, _ => (b, group, false)

/-- `action_group_add` -/
def actionGroupAdd (b : TextBuffer) (group : ActionGroup) (w : Wrapper) (tryMerge : Bool) :
    TextBuffer × ActionGroup :=
  if tryMerge then
    match b.actionGroupMerge group w with
    | (b, group, true) => (b, group)
    | (b, group, false) => (b, w :: group)
  else (b, w :: group)

/-- `action_stack_free` -/
def actionStackFree (b : TextBuffer) (stack : List ActionGroup) : TextBuffer :=
  stack.flatten.foldl (fun b w => b.editActionDestroy w.addr) b

/-- The branches of `moo_undo_stack_add_action`. -/
def pushAction (b : TextBuffer) (w : Wrapper) : TextBuffer :=
  match b.undoStack with
  | [] =>
    let (b, group) := b.actionGroupAdd [] w false
    { b with undoStack := [group] }
  | group :: rest =>
    if b.newGroup then
      let (b, group') := b.actionGroupAdd [] w false
      { b with undoStack := group' :: group :: rest }
    else if b.doContinue then
      let (b, group) := b.actionGroupAdd group w true
      { b with undoStack := group :: rest }
    else
      match b.actionGroupMerge group w with
      | (b, group, true) => { b with undoStack := group :: rest }
      | (b, group, false) =>
        let (b, group') := b.actionGroupAdd [] w true
        { b with undoStack := group' :: group :: rest }

/-- `moo_undo_stack_add_action` -/
def addAction (b : TextBuffer) (w : Wrapper) : TextBuffer :=
  if b.frozen ≠ 0 then b.editActionDestroy w.addr
  else
    let b := b.pushAction w
    let b := { b with
      newGroup := false
      doContinue := if b.continueGroup ≠ 0 then true else b.doContinue }
    { b.actionStackFree b.redoStack with redoStack := [] }

/-! ## Edits -/

/-- `action_new`: the new address and the flag `interactive`. -/
def actionNew (b : TextBuffer) : TextBuffer × ActionPtr × Bool :=
  ({ b with
      next := b.next + 1
      modifyingAction := if b.modified then b.modifyingAction else some b.next },
    b.next, b.nonInteractive == 0 && b.userActionCount != 0)

/-- `insert_action_new` -/
def insertActionNew (b : TextBuffer) (pos : ℕ) (text : List UInt8) : TextBuffer × Wrapper :=
  let (b, addr, interactive) := b.actionNew
  let chars := utf8Strlen text
  (b, ⟨addr, .insert
    { text := text
      interactive := interactive
      mergeable := !(1 < chars || byteAt text 0 == 10)
      pos := pos
      length := text.length
      chars := chars }⟩)

/-- `delete_action_new`; `cursor` is where the insert mark is. -/
def deleteActionNew (b : TextBuffer) (start stop cursor : ℕ) : TextBuffer × Wrapper :=
  let text := Utf8.encode ((b.text.take stop).drop start)
  let (b, addr, interactive) := b.actionNew
  (b, ⟨addr, .delete
    { text := text
      interactive := interactive
      mergeable := !(1 < stop - start || byteAt text 0 == 10)
      start := start
      stop := stop
      forward := interactive && cursor ≤ start }⟩)

/-- `gtk_text_buffer_insert` with `moo_text_buffer_insert_text`. -/
def insertText (b : TextBuffer) (pos : ℕ) (text : List UInt8) : TextBuffer :=
  match utf8Validate text with
  | none => b
  | some chars =>
    if chars = [] then b
    else
      let pos := min pos b.text.length
      let b :=
        if b.frozen = 0 then
          let (b, w) := b.insertActionNew pos text
          b.addAction w
        else b
      { b with text := b.text.take pos ++ chars ++ b.text.drop pos }.setModified true

/-- `gtk_text_buffer_delete` with `moo_text_buffer_delete_range`. -/
def deleteRange (b : TextBuffer) (start stop cursor : ℕ) : TextBuffer :=
  let start := min start b.text.length
  let stop := min stop b.text.length
  if start = stop then b
  else
    let (start, stop) := (min start stop, max start stop)
    let b :=
      if b.frozen = 0 then
        let (b, w) := b.deleteActionNew start stop cursor
        b.addAction w
      else b
    { b with text := b.text.take start ++ b.text.drop stop }.setModified true

/-! ## Undo and redo -/

/-- `action_undo_or_redo` -/
def actionUndoOrRedo (b : TextBuffer) (addr : ActionPtr) (wasModified : Bool) : TextBuffer :=
  if !wasModified then
    if b.modified ∧ b.modifyingAction = none then { b with modifyingAction := some addr } else b
  else if b.modifyingAction = some addr then
    { b.setModified false with modifyingAction := none }
  else b

/-- `move_cursor_to` of an interactive action. -/
def moveCursor (b : TextBuffer) (interactive : Bool) (pos : ℕ) : TextBuffer :=
  if interactive then { b with moveCursorTo := pos } else b

/-- `insert_action_undo` -/
def insertActionUndo (b : TextBuffer) (addr : ActionPtr) (a : InsertAction) : TextBuffer :=
  ((b.deleteRange a.pos (a.pos + a.chars) 0).moveCursor a.interactive a.pos).actionUndoOrRedo addr
    b.modified

/-- `delete_action_undo` -/
def deleteActionUndo (b : TextBuffer) (addr : ActionPtr) (a : DeleteAction) : TextBuffer :=
  ((b.insertText a.start (cString a.text)).moveCursor a.interactive
    (if a.forward then a.start else a.stop)).actionUndoOrRedo addr b.modified

/-- `insert_action_redo` -/
def insertActionRedo (b : TextBuffer) (addr : ActionPtr) (a : InsertAction) : TextBuffer :=
  ((b.insertText a.pos (a.text.take a.length)).moveCursor a.interactive
    (a.pos + a.length)).actionUndoOrRedo addr b.modified

/-- `delete_action_redo` -/
def deleteActionRedo (b : TextBuffer) (addr : ActionPtr) (a : DeleteAction) : TextBuffer :=
  ((b.deleteRange a.start a.stop 0).moveCursor a.interactive a.start).actionUndoOrRedo addr
    b.modified

def wrapperUndo (b : TextBuffer) (w : Wrapper) : TextBuffer :=
  match w.action with
  | .insert a => b.insertActionUndo w.addr a
  | .delete a => b.deleteActionUndo w.addr a

def wrapperRedo (b : TextBuffer) (w : Wrapper) : TextBuffer :=
  match w.action with
  | .insert a => b.insertActionRedo w.addr a
  | .delete a => b.deleteActionRedo w.addr a

/-- `action_group_undo` -/
def actionGroupUndo (b : TextBuffer) (group : ActionGroup) : TextBuffer :=
  group.foldl wrapperUndo b

/-- `action_group_redo` -/
def actionGroupRedo (b : TextBuffer) (group : ActionGroup) : TextBuffer :=
  group.reverse.foldl wrapperRedo b

/-- `moo_undo_stack_undo_real` up to the actions themselves. -/
def beginUndo (b : TextBuffer) (group : ActionGroup) (rest : List ActionGroup) : TextBuffer :=
  { b with
    frozen := b.frozen + 1
    undoStack := rest
    redoStack := group :: b.redoStack
    newGroup := true }

/-- `moo_undo_stack_redo_real` up to the actions themselves. -/
def beginRedo (b : TextBuffer) (group : ActionGroup) (rest : List ActionGroup) : TextBuffer :=
  { b with
    frozen := b.frozen + 1
    redoStack := rest
    undoStack := group :: b.undoStack
    newGroup := true }

/-- What follows the actions, with `after_undo_redo`. -/
def endUndoRedo (b : TextBuffer) : TextBuffer :=
  { b with frozen := b.frozen - 1, moveCursorTo := -1 }

/-- `moo_undo_stack_undo` -/
def undo (b : TextBuffer) : TextBuffer :=
  match b.undoStack with
  | [] => b
  | group :: rest => ((b.beginUndo group rest).actionGroupUndo group).endUndoRedo

/-- `moo_undo_stack_redo` -/
def redo (b : TextBuffer) : TextBuffer :=
  match b.redoStack with
  | [] => b
  | group :: rest => ((b.beginRedo group rest).actionGroupRedo group).endUndoRedo

/-! ## Groups -/

/-- `moo_undo_stack_start_group` -/
def startGroup (b : TextBuffer) : TextBuffer := { b with continueGroup := b.continueGroup + 1 }

/-- `moo_undo_stack_end_group` -/
def endGroup (b : TextBuffer) : TextBuffer :=
  if b.continueGroup = 0 then b
  else if b.continueGroup = 1 then { b with continueGroup := 0, doContinue := false }
  else { b with continueGroup := b.continueGroup - 1 }

/-- `moo_undo_stack_new_group` -/
def setNewGroup (b : TextBuffer) : TextBuffer := { b with newGroup := true }

/-- `moo_text_buffer_begin_user_action` -/
def beginUserAction (b : TextBuffer) : TextBuffer :=
  { b.startGroup with userActionCount := b.userActionCount + 1 }

/-- `moo_text_buffer_end_user_action`; `GtkTextBuffer` calls it once for each of the above. -/
def endUserAction (b : TextBuffer) : TextBuffer :=
  { b.endGroup with userActionCount := b.userActionCount - 1 }

/-- `moo_text_buffer_begin_non_interactive_action` -/
def beginNonInteractiveAction (b : TextBuffer) : TextBuffer :=
  { b with nonInteractive := b.nonInteractive + 1 }

/-- `moo_text_buffer_end_non_interactive_action` -/
def endNonInteractiveAction (b : TextBuffer) : TextBuffer :=
  { b with nonInteractive := b.nonInteractive - 1 }

/-- A buffer that has just got its text. -/
def init (text : List Char) : TextBuffer where
  text := text
  modified := false
  userActionCount := 0
  nonInteractive := 0
  moveCursorTo := -1
  modifyingAction := none
  undoStack := []
  redoStack := []
  frozen := 0
  continueGroup := 0
  doContinue := false
  newGroup := false
  next := 0

end TextBuffer

end Medit
