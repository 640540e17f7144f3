import Medit.Files.Encoding
import Medit.TextBuffer.Undo

/-!
# Documents

`MooEdit`: a text buffer with what is known of its file, and the watch that notices changes of the
file on disk.

## Main definitions

* `MooEditStatus`, `MooLineEndType`, `MooFileWatch` — the parts of a document.
* `MooEdit` — a document.
* `MooEdit.startFileWatch`, `MooEdit.stopFileWatch` — when its file is watched.
-/

namespace Medit

/-- The name of a file in the file system. -/
abbrev FileName := List UInt8

/-- The kinds of line ends but `MOO_LE_NONE`. -/
inductive MooLineEndType where
  | unix
  | win32
  | mac
  deriving DecidableEq, Repr

/-- `MOO_LE_NATIVE` -/
def MooLineEndType.native : MooLineEndType := .unix

/-- The flags of a `MooEditStatus`. -/
structure MooEditStatus where
  modifiedOnDisk : Bool
  deleted : Bool
  modified : Bool
  new : Bool
  clean : Bool
  watchFailed : Bool
deriving DecidableEq

/-- `MOO_EDIT_STATUS_NORMAL` -/
def MooEditStatus.normal : MooEditStatus := ⟨false, false, false, false, false, false⟩

/-- `status & MOO_EDIT_STATUS_CHANGED_ON_DISK` -/
def MooEditStatus.changedOnDisk (s : MooEditStatus) : Bool := s.modifiedOnDisk || s.deleted

/-- A `GFile`, with what `g_file_get_path` gives. -/
structure GFile where
  uri : List UInt8
  path : Option FileName
deriving DecidableEq

/-! ## The file watch -/

structure Monitor where
  id : ℕ
  filename : FileName
deriving DecidableEq

/-- `MooFileWatch`, with the `id` of `get_new_monitor_id`. -/
structure MooFileWatch where
  monitors : List Monitor
  id : ℕ
deriving DecidableEq

namespace MooFileWatch

/-- `moo_file_watch_create_monitor`, when `stat` of the file works or does not. -/
def createMonitor (w : MooFileWatch) (filename : FileName) (statOk : Bool) :
    MooFileWatch × Option ℕ :=
  if statOk then (⟨⟨w.id + 1, filename⟩ :: w.monitors, w.id + 1⟩, some (w.id + 1)) else (w, none)

/-- `moo_file_watch_cancel_monitor` -/
def cancelMonitor (w : MooFileWatch) (id : ℕ) : MooFileWatch :=
  { w with monitors := w.monitors.filter (·.id ≠ id) }

end MooFileWatch

/-! ## Documents -/

/-- The parts of a `MooEdit` that loading and saving use. -/
structure MooEdit where
  buffer : TextBuffer
  lineEndType : Option MooLineEndType
  file : Option GFile
  filename : Option FileName
  encoding : EncodingName
  status : MooEditStatus
  busy : Bool
  fileMonitorId : Option ℕ
  modifiedOnDisk : Bool
  deletedFromDisk : Bool
  /-- The watch of the editor. -/
  watch : MooFileWatch
deriving DecidableEq

namespace MooEdit

/-- `moo_edit_get_line_end_type` -/
def getLineEndType (edit : MooEdit) : MooLineEndType := edit.lineEndType.getD .native

/-- `moo_edit_set_modified` -/
def setModified (edit : MooEdit) (modified : Bool) : MooEdit :=
  { edit with
    buffer := edit.buffer.setModified modified
    status := { edit.status with modified := modified } }

/-- `moo_edit_is_empty` -/
def isEmpty (edit : MooEdit) : Bool :=
  !edit.busy && !edit.status.modified && edit.file.isNone && edit.buffer.text.isEmpty

/-- `_moo_edit_set_file` with an encoding. -/
def setFile (edit : MooEdit) (file : GFile) (encoding : EncodingName) : MooEdit :=
  { edit with file := some file, filename := file.path, encoding := encoding }

/-- `_moo_edit_stop_file_watch` -/
def stopFileWatch (edit : MooEdit) : MooEdit :=
  { edit with
    watch := edit.fileMonitorId.elim edit.watch edit.watch.cancelMonitor
    fileMonitorId := none }

/-- `_moo_edit_start_file_watch`, when `stat` of the file works or does not. -/
def startFileWatch (edit : MooEdit) (statOk : Bool) : MooEdit :=
  let edit := edit.stopFileWatch
  if edit.status.changedOnDisk then edit
  else
    match edit.filename with
    | none => edit
    | some filename =>
      let (watch, id) := edit.watch.createMonitor filename statOk
      { edit with
        watch := watch
        fileMonitorId := id
        status := { edit.status with watchFailed := id.isNone } }

/-! ## What the operations leave -/

@[simp] theorem startFileWatch_buffer (edit : MooEdit) (statOk : Bool) :
    (edit.startFileWatch statOk).buffer = edit.buffer := by
  unfold startFileWatch
  dsimp only
  split_ifs
  · rfl
  · cases edit.stopFileWatch.filename <;> rfl

@[simp] theorem startFileWatch_modified (edit : MooEdit) (statOk : Bool) :
    (edit.startFileWatch statOk).status.modified = edit.status.modified := by
  unfold startFileWatch
  dsimp only
  split_ifs
  · rfl
  · cases edit.stopFileWatch.filename <;> rfl

@[simp] theorem setModified_modified (edit : MooEdit) (modified : Bool) :
    (edit.setModified modified).buffer.modified = modified := by
  have hbuffer : (edit.setModified modified).buffer = edit.buffer.setModified modified := rfl
  rw [hbuffer, TextBuffer.setModified]
  by_cases hm : modified = edit.buffer.modified
  · rw [if_pos hm, hm]
  · rw [if_neg hm]

/-- A document that has just been made. -/
def untitled : MooEdit where
  buffer := .init []
  lineEndType := none
  file := none
  filename := none
  encoding := nameUtf8
  status := .normal
  busy := false
  fileMonitorId := none
  modifiedOnDisk := false
  deletedFromDisk := false
  watch := ⟨[], 0⟩

end MooEdit

end Medit
