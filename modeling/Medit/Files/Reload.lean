import Medit.Files.Save

/-!
# Loading and reloading a file

`_moo_edit_load_file`, which serves first loads and reloads. What the disk and the user answer is a
parameter; a user who answers no more has closed the dialog.

## Main definitions

* `convertFileDataToUtf8WithPrompt` — the prompt for another encoding.
* `MooEdit.loadFile`, `MooEdit.reloadFile` — loading and reloading.
* `MooEdit.NoticesChange` — a change of the file on disk reaches the document.

## Main results

* `reload_keeps_iff` — a failed reload ends the watch.
-/

namespace Medit

/-- The types of files that `check_regular` tells apart. -/
inductive GFileType where
  | regular
  | unknown
  | other
deriving DecidableEq

/-- What the file system answers about the file to be loaded. -/
structure LoadIo where
  isNative : Bool
  /-- The type `g_file_query_info` finds, if it works. -/
  fileType : Option GFileType
  contents : Except GError (List UInt8)
  /-- Whether `stat` of the file works. -/
  statOk : Bool

/-- What the user chooses in the dialog of `_moo_edit_try_encoding_dialog`. -/
inductive TryEncodingResponse where
  | cancel
  | cancelAll
  | tryAnother (newEncoding : EncodingName)
deriving DecidableEq

/-- `check_regular` -/
def checkRegular (io : LoadIo) : Option GError :=
  if !io.isNative then none
  else if io.fileType = some .other then
    some (.editFile .failed (CString.ascii "Not a regular file".toList))
  else none

/-- `load_file_contents` -/
def loadFileContents (io : LoadIo) (file : GFile) : Except GError (List UInt8) :=
  match checkRegular io with
  | some e => .error e
  | none =>
    match file.path with
    | none => .error (.editFile .notImplemented
        (CString.ascii "Loading remote files is not implemented".toList))
    | some _ => io.contents

/-- `normalize_encoding` for loading. -/
def normalizeEncodingForLoad (encoding : Option EncodingName) : Option EncodingName :=
  encoding.filter fun enc => enc ≠ [] ∧ enc ≠ CString.ascii "auto".toList

section Load

variable (order : ByteOrder) (gConvert : GConvert) (encodings : List EncodingName)

/-- `convert_file_data_to_utf8_with_prompt`: the text with its encoding, and
`skip_encoding_prompts`. -/
def convertFileDataToUtf8WithPrompt (data : List UInt8) :
    List TryEncodingResponse → Bool → Option EncodingName → Option EncodingName →
      Option (List UInt8 × Option EncodingName) × Bool
  | answers, skip, encoding, cachedEncoding =>
    match mooConvertFileDataToUtf8 order gConvert encodings data encoding cachedEncoding with
    | (some text, usedEncoding) => (some (text, usedEncoding), skip)
    | (none, _) =>
      if skip then (none, skip)
      else
        match answers with
        | .tryAnother newEncoding :: answers =>
          convertFileDataToUtf8WithPrompt data answers skip
            (normalizeEncodingForLoad (some newEncoding)) none
        | .cancelAll :: _ => (none, true)
        | .cancel :: _ => (none, skip)
        | [] => (none, skip)

namespace TextBuffer

/-- `moo_text_buffer_begin_non_undoable_action` -/
def beginNonUndoableAction (b : TextBuffer) : TextBuffer := { b with frozen := b.frozen + 1 }

/-- `moo_text_buffer_end_non_undoable_action` -/
def endNonUndoableAction (b : TextBuffer) : TextBuffer := { b with frozen := b.frozen - 1 }

end TextBuffer

namespace MooEdit

/-- `moo_edit_load_text` -/
def loadText (edit : MooEdit) (io : LoadIo) (file : GFile) (encoding : EncodingName)
    (text : List UInt8) : MooEdit :=
  let undo := !edit.isEmpty
  let buffer := if undo then edit.buffer.beginUserAction else edit.buffer.beginNonUndoableAction
  let buffer := buffer.beginNonInteractiveAction
  let buffer := buffer.deleteRange 0 buffer.text.length 0
  let edit := { edit with buffer := buffer }.doLoadText text
  let buffer :=
    if undo then edit.buffer.endUserAction else edit.buffer.endNonUndoableAction
  let edit := { edit with buffer := buffer.endNonInteractiveAction, status := .normal }
  ((edit.setModified false).setFile file encoding).startFileWatch io.statOk

/-- What loading leaves behind. -/
structure LoadResult where
  edit : MooEdit
  success : Bool
  error : Option GError
  skipEncodingPrompts : Bool

/-- The error of `moo_return_error_if_fail`. -/
def unexpectedError : GError := .other (CString.ascii "unexpected error".toList)

variable (defaultEncoding : EncodingName) (io : LoadIo) (answers : List TryEncodingResponse)
  (skip : Bool)

/-- `_moo_edit_load_file` -/
def loadFile (edit : MooEdit) (file : GFile) (encoding cachedEncoding : Option EncodingName) :
    LoadResult :=
  if edit.busy then ⟨edit, false, some unexpectedError, skip⟩
  else
    match loadFileContents io file with
    | .error e => ⟨edit.stopFileWatch, false, some e, skip⟩
    | .ok data =>
      match convertFileDataToUtf8WithPrompt order gConvert encodings data answers skip
        (normalizeEncodingForLoad encoding) (normalizeEncodingForLoad cachedEncoding) with
      | (none, skip) =>
        ⟨edit.stopFileWatch, false,
          some (.editFile .cancelled (CString.ascii "Cancelled".toList)), skip⟩
      | (some (text, usedEncoding), skip) =>
        ⟨edit.loadText io file (usedEncoding.getD defaultEncoding) text, true, none, skip⟩

/-- `_moo_edit_reload_file`, with `moo_edit_reload_local`. -/
def reloadFile (edit : MooEdit) (encoding : Option EncodingName) : LoadResult :=
  match edit.file with
  | none => ⟨edit, false, some unexpectedError, skip⟩
  | some file =>
    let r := edit.loadFile order gConvert encodings defaultEncoding io answers skip file
      (encoding.or (some edit.encoding)) none
    if r.success then
      let edit := { r.edit with status := .normal }
      { r with edit := (edit.setModified false).startFileWatch io.statOk, error := none }
    else r

/-! ## Noticing changes -/

/-- The monitors for which `do_stat` emits an event when a file has changed. -/
def changedMonitors (watch : MooFileWatch) (filename : FileName) : List ℕ :=
  (watch.monitors.filter (·.filename = filename)).map (·.id)

/-- The conditions under which `file_watch_callback` looks at the event of a monitor. -/
def acceptsEvent (edit : MooEdit) (id : ℕ) : Bool :=
  edit.fileMonitorId == some id && edit.filename.isSome && !edit.status.changedOnDisk

/-- A change of the file on disk reaches the document. -/
def NoticesChange (edit : MooEdit) : Prop :=
  ∃ filename, edit.filename = some filename ∧
    ∃ id ∈ changedMonitors edit.watch filename, edit.acceptsEvent id

/-- What a failed reload is to leave of a document. -/
structure ReloadKeeps (edit edit' : MooEdit) : Prop where
  /-- The text, the history of undoing and the modified flag. -/
  buffer : edit'.buffer = edit.buffer
  encoding : edit'.encoding = edit.encoding
  lineEndType : edit'.lineEndType = edit.lineEndType
  status : edit'.status = edit.status
  notices : edit'.NoticesChange

variable {order gConvert encodings defaultEncoding io answers skip} {edit : MooEdit}

theorem not_noticesChange_stopFileWatch : ¬ edit.stopFileWatch.NoticesChange := by
  rintro ⟨filename, -, id, -, hid⟩
  simp [acceptsEvent, stopFileWatch] at hid

/-- A load that fails ends the watch and changes nothing else. -/
theorem loadFile_failed {file : GFile} {encoding cachedEncoding : Option EncodingName}
    (h : (edit.loadFile order gConvert encodings defaultEncoding io answers skip file encoding
      cachedEncoding).success = false) :
    (edit.loadFile order gConvert encodings defaultEncoding io answers skip file encoding
      cachedEncoding).edit = if edit.busy then edit else edit.stopFileWatch := by
  unfold loadFile at h ⊢
  split
  · rfl
  · next hbusy =>
    rw [if_neg hbusy] at h
    split
    · rfl
    · next data hdata =>
      rw [hdata] at h
      dsimp only at h
      split
      · rfl
      · next hconvert =>
        rw [hconvert] at h
        exact absurd h (by simp)

/-- A failed reload of a document whose file is watched keeps what it should only when the document
is busy, and the file has not been looked at: any other failure ends the watch. -/
theorem reload_keeps_iff (edit : MooEdit) (encoding : Option EncodingName) (hfile : edit.file.isSome)
    (hwatch : edit.NoticesChange)
    (hfail : (edit.reloadFile order gConvert encodings defaultEncoding io answers skip
      encoding).success = false) :
    ReloadKeeps edit (edit.reloadFile order gConvert encodings defaultEncoding io answers skip
      encoding).edit ↔ edit.busy = true := by
  obtain ⟨file, hfile⟩ := Option.isSome_iff_exists.1 hfile
  have hload : (edit.loadFile order gConvert encodings defaultEncoding io answers skip file
      (encoding.or (some edit.encoding)) none).success = false := by
    simp only [reloadFile, hfile] at hfail
    split_ifs at hfail <;> exact hfail
  have hreload : (edit.reloadFile order gConvert encodings defaultEncoding io answers skip
      encoding).edit = if edit.busy then edit else edit.stopFileWatch := by
    simp only [reloadFile, hfile, hload]
    exact loadFile_failed hload
  rw [hreload]
  constructor
  · intro h
    by_contra hbusy
    rw [if_neg hbusy] at h
    exact not_noticesChange_stopFileWatch h.notices
  · intro hbusy
    rw [if_pos hbusy]
    exact ⟨rfl, rfl, rfl, rfl, hwatch⟩

end MooEdit

end Load

namespace MooEdit

/-- A document whose file is watched. -/
def watched : MooEdit :=
  { untitled with
    file := some ⟨[97], some [97]⟩
    filename := some [97]
    fileMonitorId := some 1
    watch := ⟨[⟨1, [97]⟩], 1⟩ }

/-- A file that cannot be read. -/
def unreadable : LoadIo := ⟨true, some .regular, .error (.other []), true⟩

theorem reload_keeps_unreadable :
    ReloadKeeps watched (watched.reloadFile .little (fun _ _ _ => none) [] nameUtf8 unreadable []
      false none).edit ↔ watched.busy = true :=
  reload_keeps_iff watched none rfl ⟨[97], rfl, 1, by decide, rfl⟩ rfl

/-- The document is not watched after its file could not be read. -/
theorem reload_unreadable :
    watched.NoticesChange ∧ ¬ (watched.reloadFile .little (fun _ _ _ => none) [] nameUtf8 unreadable
      [] false none).edit.NoticesChange :=
  ⟨⟨[97], rfl, 1, by decide, rfl⟩, not_noticesChange_stopFileWatch⟩

end MooEdit

end Medit
