import Medit.Files.LineEnds

/-!
# Saving a file

`_moo_edit_save_file` and the writer below it. A file is replaced when its stream is closed, as
`g_file_replace` does it; which calls of GIO fail, and with what error, is a parameter.

## Main definitions

* `MooLocalFileWriter` — the writer with its sticky error.
* `MooEdit.doWrite`, `MooEdit.doSaveLocal`, `MooEdit.saveFile` — the layers of saving.
* `SaveContract` — what a save promises its caller.

## Main results

* `save_contract_iff` — when the promise is kept.
-/

namespace Medit

/-- The codes of `MOO_EDIT_FILE_ERROR` that are used. -/
inductive MooEditFileError where
  | encoding
  | failed
  | notImplemented
  | cancelled
deriving DecidableEq

/-- A `GError`: one of `MOO_EDIT_FILE_ERROR`, or one of another domain. -/
inductive GError where
  | editFile (code : MooEditFileError) (message : List UInt8)
  | other (message : List UInt8)
deriving DecidableEq

def GError.message : GError → List UInt8
  | editFile _ message => message
  | other message => message

/-! ## Files and streams -/

structure FileSystem where
  files : GFile → Option (List UInt8)
  /-- How many files have been replaced. -/
  replaced : ℕ
  /-- How many output streams are open. -/
  openStreams : ℕ

/-- The stream of `g_file_replace`, which writes to a file of its own until it is closed. -/
structure GOutputStream where
  file : GFile
  pending : List UInt8
deriving DecidableEq

/-- The errors of the calls outside the program, where they fail. -/
structure Gio where
  convertError : GError
  replaceError : Option GError
  /-- The error of `g_output_stream_write_all` behind so many bytes. -/
  writeError : ℕ → Option GError
  flushError : Option GError
  closeError : Option GError
  /-- Whether `stat` of the saved file works. -/
  statOk : Bool

namespace FileSystem

/-- `g_output_stream_close`: the file is replaced unless closing fails. -/
def close (fs : FileSystem) (stream : GOutputStream) (closeError : Option GError) : FileSystem :=
  if closeError.isSome then { fs with openStreams := fs.openStreams - 1 }
  else
    { files := Function.update fs.files stream.file (some stream.pending)
      replaced := fs.replaced + 1
      openStreams := fs.openStreams - 1 }

end FileSystem

/-! ## The writer -/

structure MooLocalFileWriter where
  stream : Option GOutputStream
  error : Option GError
deriving DecidableEq

namespace MooLocalFileWriter

variable (io : Gio)

/-- `moo_local_file_writer_new` -/
def new (fs : FileSystem) (file : GFile) : FileSystem × Except GError MooLocalFileWriter :=
  match io.replaceError with
  | some e => (fs, .error e)
  | none => ({ fs with openStreams := fs.openStreams + 1 }, .ok ⟨some ⟨file, []⟩, none⟩)

/-- `moo_local_file_writer_write` -/
def write (w : MooLocalFileWriter) (data : List UInt8) : MooLocalFileWriter × Bool :=
  if w.error.isSome then (w, false)
  else
    match w.stream with
    | none => (w, false)
    | some stream =>
      match io.writeError stream.pending.length with
      | some e => ({ w with error := some e }, false)
      | none => ({ w with stream := some { stream with pending := stream.pending ++ data } }, true)

/-- `moo_local_file_writer_close`: whether it has worked, and `*error`. -/
def close (fs : FileSystem) (w : MooLocalFileWriter) : FileSystem × Bool × Option GError :=
  match w.stream with
  | none => (fs, false, none)
  | some stream =>
    let (fs, error) :=
      if w.error.isNone then (fs.close stream io.closeError, io.flushError.or io.closeError)
      else (fs, w.error)
    (fs, error.isNone, error)

end MooLocalFileWriter

/-! ## Saving -/

/-- What a function that saves leaves behind. -/
structure SaveResult where
  fs : FileSystem
  success : Bool
  error : Option GError

/-- `set_encoding_error` -/
def setEncodingError (error : GError) : GError := .editFile .encoding error.message

/-- `normalize_encoding` for saving. -/
def normalizeEncodingForSave (encoding : Option EncodingName) : EncodingName :=
  match encoding with
  | none => nameUtf8
  | some enc => if enc = [] ∨ enc = CString.ascii "auto".toList then nameUtf8 else enc

section Save

variable (io : Gio) (gConvert : GConvert)

/-- `do_write` -/
def doWrite (fs : FileSystem) (file : GFile) (data₁ data₂ : List UInt8) : SaveResult :=
  match MooLocalFileWriter.new io fs file with
  | (fs, .error e) => ⟨fs, false, some e⟩
  | (fs, .ok writer) =>
    let (writer, success) := if data₁ = [] then (writer, true) else writer.write io data₁
    let (writer, success) :=
      if success && data₂ ≠ [] then writer.write io data₂ else (writer, success)
    if success then
      let (fs, success, error) := writer.close io fs
      ⟨fs, success, error⟩
    else ⟨fs, false, none⟩

namespace MooEdit

/-- `do_save_local` -/
def doSaveLocal (edit : MooEdit) (fs : FileSystem) (file : GFile) (encoding : EncodingName) :
    SaveResult :=
  match convertToSave gConvert encoding edit.getContents with
  | none => ⟨fs, false, some (setEncodingError io.convertError)⟩
  | some (bom, toSave) => doWrite io fs file bom toSave

/-- `moo_edit_save_local` -/
def saveLocal (edit : MooEdit) (fs : FileSystem) (file : GFile) (encoding : EncodingName) :
    MooEdit × SaveResult :=
  let r := edit.doSaveLocal io gConvert fs file encoding
  if r.success then
    let edit := { edit with status := .normal }
    (((edit.setFile file encoding).setModified false).startFileWatch io.statOk, r)
  else (edit, r)

/-- `_moo_edit_save_file` -/
def saveFile (edit : MooEdit) (fs : FileSystem) (file : GFile) (encoding : Option EncodingName) :
    MooEdit × SaveResult :=
  edit.saveLocal io gConvert fs file (normalizeEncodingForSave encoding)

end MooEdit

/-! ## The promise -/

/-- What a save that leaves `edit'` and `r` behind promises. -/
structure SaveContract (edit : MooEdit) (fs : FileSystem) (file : GFile)
    (encoding : Option EncodingName) (edit' : MooEdit) (r : SaveResult) : Prop where
  /-- It fails exactly when it has set `*error`. -/
  error : r.success = false ↔ r.error ≠ none
  /-- When it fails, the document and the file are what they were. -/
  failed : r.success = false → edit'.file = edit.file ∧ edit'.encoding = edit.encoding ∧
    edit'.status = edit.status ∧ edit'.buffer.modified = edit.buffer.modified ∧
    r.fs.files = fs.files ∧ r.fs.replaced = fs.replaced
  /-- When it succeeds, the file holds the mark and the text, and the document is unmodified. -/
  saved : r.success = true → ∃ bom text,
    convertToSave gConvert (normalizeEncodingForSave encoding) edit.getContents = some (bom, text) ∧
    r.fs.files file = some (bom ++ text) ∧ edit'.status.modified = false ∧
    edit'.buffer.modified = false
  /-- No stream is left open. -/
  closed : r.fs.openStreams = fs.openStreams

/-- The writes of a mark and of a text work. -/
def WritesWork (bom text : List UInt8) : Prop :=
  (bom ≠ [] → io.writeError 0 = none) ∧ (text ≠ [] → io.writeError bom.length = none)

/-- Saving to `file` goes wrong, if at all, where the program expects it: no write fails, and
flushing does not fail where closing works. -/
def SavesWell (edit : MooEdit) (encoding : Option EncodingName) : Prop :=
  ∀ bom text, convertToSave gConvert (normalizeEncodingForSave encoding) edit.getContents =
    some (bom, text) → io.replaceError = none →
      WritesWork io bom text ∧ (io.flushError ≠ none → io.closeError ≠ none)

/-! ## Writing -/

variable {io} {fs : FileSystem} {file : GFile} {bom text : List UInt8}

theorem doWrite_of_replaceError {e : GError} (h : io.replaceError = some e) :
    doWrite io fs file bom text = ⟨fs, false, some e⟩ := by
  simp [doWrite, MooLocalFileWriter.new, h]

/-- Where the writes work, closing the writer decides. -/
theorem doWrite_of_writesWork (h : io.replaceError = none) (hw : WritesWork io bom text) :
    doWrite io fs file bom text =
      ⟨{ fs with openStreams := fs.openStreams + 1 }.close ⟨file, bom ++ text⟩ io.closeError,
        (io.flushError.or io.closeError).isNone, io.flushError.or io.closeError⟩ := by
  obtain ⟨hbom, htext⟩ := hw
  unfold doWrite
  simp only [MooLocalFileWriter.new, h, MooLocalFileWriter.write, MooLocalFileWriter.close]
  by_cases hb : bom = [] <;> by_cases ht : text = []
  · simp [hb, ht]
  · have := htext ht
    simp_all
  · simp [hb, ht, hbom hb]
  · simp [hb, ht, hbom hb, htext ht]

/-- When a write fails, the stream stays open and nothing is said about it. -/
theorem doWrite_of_not_writesWork (h : io.replaceError = none) (hw : ¬ WritesWork io bom text) :
    doWrite io fs file bom text =
      ⟨{ fs with openStreams := fs.openStreams + 1 }, false, none⟩ := by
  unfold doWrite
  simp only [MooLocalFileWriter.new, h, MooLocalFileWriter.write]
  rcases Classical.em (bom = [] ∨ io.writeError 0 = none) with hbom | hbom
  · -- the text cannot be written
    obtain ⟨ht, hne⟩ : text ≠ [] ∧ io.writeError bom.length ≠ none := by
      unfold WritesWork at hw
      grind
    obtain ⟨e, he⟩ := Option.ne_none_iff_exists'.1 hne
    by_cases hb : bom = []
    · simp_all
    · have h0 := hbom.resolve_left hb
      simp [hb, h0, ht, he]
  · -- the mark cannot be written
    obtain ⟨hb, hne⟩ := not_or.1 hbom
    obtain ⟨e, he⟩ := Option.ne_none_iff_exists'.1 hne
    simp [hb, he]

/-! ## The promise -/

namespace MooEdit

/-- A saved document is unmodified. -/
theorem saveLocal_modified {edit : MooEdit} {encoding : EncodingName}
    (h : (edit.doSaveLocal io gConvert fs file encoding).success = true) :
    (edit.saveLocal io gConvert fs file encoding).1.status.modified = false ∧
      (edit.saveLocal io gConvert fs file encoding).1.buffer.modified = false := by
  unfold saveLocal
  rw [if_pos h]
  refine ⟨?_, ?_⟩
  · rw [startFileWatch_modified]
    rfl
  · rw [startFileWatch_buffer, setModified_modified]

/-- A save keeps its promise exactly when no write fails, and flushing does not fail where closing
works. -/
theorem save_contract_iff (edit : MooEdit) (io : Gio) (gConvert : GConvert) (fs : FileSystem)
    (file : GFile) (encoding : Option EncodingName) :
    SaveContract gConvert edit fs file encoding (edit.saveFile io gConvert fs file encoding).1
        (edit.saveFile io gConvert fs file encoding).2 ↔
      SavesWell io gConvert edit encoding := by
  unfold saveFile SavesWell
  set enc := normalizeEncodingForSave encoding with henc
  have hfailed (h : (edit.doSaveLocal io gConvert fs file enc).success = false) :
      (edit.saveLocal io gConvert fs file enc).1 = edit := by
    simp [saveLocal, h]
  have hresult : (edit.saveLocal io gConvert fs file enc).2 =
      edit.doSaveLocal io gConvert fs file enc := by
    unfold saveLocal
    dsimp only
    split_ifs <;> rfl
  have hmodified := @saveLocal_modified io gConvert fs file edit enc
  rw [hresult]
  generalize (edit.saveLocal io gConvert fs file enc).1 = edit' at *
  rcases hconvert : convertToSave gConvert enc edit.getContents with _ | ⟨bom, text⟩
  · -- nothing has been opened
    have hsave : edit.doSaveLocal io gConvert fs file enc =
        ⟨fs, false, some (setEncodingError io.convertError)⟩ := by
      simp [doSaveLocal, hconvert]
    rw [hsave] at hfailed hmodified ⊢
    obtain rfl := hfailed rfl
    exact ⟨fun _ => by simp, fun _ => ⟨by simp, by simp, by simp, rfl⟩⟩
  · have hsave : edit.doSaveLocal io gConvert fs file enc = doWrite io fs file bom text := by
      simp [doSaveLocal, hconvert]
    rw [hsave] at hfailed hmodified ⊢
    have hsome : ∀ {P : List UInt8 → List UInt8 → Prop},
        (∀ b t, some (bom, text) = some (b, t) → P b t) ↔ P bom text :=
      fun {P} => ⟨fun h => h _ _ rfl, by rintro h b t ⟨⟩; exact h⟩
    rw [hsome]
    cases hreplace : io.replaceError with
    | some e =>
      -- no stream has been opened
      rw [doWrite_of_replaceError hreplace] at hfailed ⊢
      obtain rfl := hfailed rfl
      exact ⟨fun _ => by simp, fun _ => ⟨by simp, by simp, by simp, rfl⟩⟩
    | none =>
      by_cases hw : WritesWork io bom text
      · rw [doWrite_of_writesWork hreplace hw] at hfailed hmodified ⊢
        cases hclose : io.closeError with
        | some e =>
          have hfail : (io.flushError.or (some e)).isNone = false := by cases io.flushError <;> rfl
          rw [hclose] at hfailed
          obtain rfl := hfailed hfail
          refine ⟨fun _ _ => ⟨hw, by simp⟩, fun _ => ⟨?_, ?_, ?_, ?_⟩⟩
          · cases io.flushError <;> simp
          · simp [FileSystem.close]
          · simp
          · simp [FileSystem.close]
        | none =>
          cases hflush : io.flushError with
          | none =>
            rw [hclose, hflush] at hmodified
            refine ⟨fun _ _ => ⟨hw, by simp⟩, fun _ => ⟨by simp, by simp, fun _ => ?_, ?_⟩⟩
            · exact ⟨bom, text, hconvert, by simp [FileSystem.close], hmodified rfl⟩
            · simp [FileSystem.close]
          | some e =>
            -- an error of flushing does not stop the file from being replaced
            constructor
            · intro h
              have := (h.failed (by simp)).2.2.2.2.2
              simp [FileSystem.close] at this
            · intro h
              exact absurd rfl ((h rfl).2 (by simp))
      · rw [doWrite_of_not_writesWork hreplace hw]
        constructor
        · intro h
          exact absurd rfl (h.error.1 rfl)
        · intro h
          exact absurd (h rfl).1 hw

end MooEdit

end Save

/-- The first write fails, everything else works. -/
def Gio.writeFails : Gio where
  convertError := .other []
  replaceError := none
  writeError _ := some (.other (CString.ascii "No space left on device".toList))
  flushError := none
  closeError := none
  statOk := true

/-- A failed write is not reported, and its stream stays open. -/
theorem MooEdit.save_write_error :
    let edit := { MooEdit.untitled with buffer := .init ['a'] }
    let r := (edit.saveFile .writeFails (fun _ _ _ => none) ⟨fun _ => none, 0, 0⟩ ⟨[], none⟩ none).2
    r.success = false ∧ r.error = none ∧ r.fs.openStreams = 1 := by
  intro edit r
  have hcontents : edit.getContents = [97] := contentsFrom_eq (by decide) _ (Nat.zero_le _)
  have hconvert : convertToSave (fun _ _ _ => none) nameUtf8 edit.getContents = some ([], [97]) := by
    rw [hcontents]
    decide
  have hr : r = ⟨⟨fun _ => none, 0, 1⟩, false, none⟩ := by
    have hsave : edit.doSaveLocal .writeFails (fun _ _ _ => none) ⟨fun _ => none, 0, 0⟩ ⟨[], none⟩
        nameUtf8 = ⟨⟨fun _ => none, 0, 1⟩, false, none⟩ := by
      rw [doSaveLocal, hconvert]
      exact doWrite_of_not_writesWork rfl fun h => absurd (h.2 (by simp)) (by simp [Gio.writeFails])
    simp only [r, saveFile, saveLocal, normalizeEncodingForSave, hsave]
    rfl
  rw [hr]
  exact ⟨rfl, rfl, rfl⟩

end Medit
