import Mathlib.Data.List.Basic
import Mathlib.Logic.Function.Basic

/-!
# The editor: windows, documents, opening, saving and closing

Models `mooeditor.cpp` with what it uses of `mooeditwindow.cpp`, `mooedit.cpp` and
`mooedit-fileops.cpp`. Documents and windows are objects known by numbers. What the user answers
in the dialogs of a request and what happens to the files it reads and writes are functions of
the documents and files asked about.

## Main definitions

* `MooEditor`: the windows in order with their documents, the documents outside windows, the
  documents themselves.
* `MooEditor.loadFile`, `MooEditor.openFiles`, `MooEditor.newDoc`: opening.
* `MooEditor.save`, `MooEditor.saveAs`, `MooEditor.reload`: the files of a document.
* `MooEditor.closeDocs`, `MooEditor.closeWindow`, `MooEditor.closeAll`: closing.
-/

namespace Medit.Editor

/-! ## Documents -/

/-- `MooEdit`: its file, its encoding, the flags of its status and whether it has any text. -/
structure MooEdit (F : Type) where
  file : Option F
  encoding : String
  modified : Bool
  clean : Bool
  modifiedOnDisk : Bool
  isNew : Bool
  busy : Bool
  hasText : Bool
deriving DecidableEq

/-- `moo_edit_is_untitled`. -/
def MooEdit.isUntitled {F : Type} (doc : MooEdit F) : Bool := doc.file.isNone

/-- `moo_edit_is_empty`. -/
def MooEdit.isEmpty {F : Type} (doc : MooEdit F) : Bool :=
  !doc.busy && !doc.modified && doc.isUntitled && !doc.hasText

/-- What `find_modified` looks for. -/
def MooEdit.unsaved {F : Type} (doc : MooEdit F) : Bool := doc.modified && !doc.clean

/-- The document with all flags of its status cleared. -/
def MooEdit.clearStatus {F : Type} (doc : MooEdit F) : MooEdit F :=
  { doc with modified := false, clean := false, modifiedOnDisk := false, isNew := false }

/-! ## The editor and what it works with -/

/-- The editor's properties and preferences, and what it asks of a file. -/
structure Env (F N : Type) where
  allowEmptyWindow : Bool
  embedded : Bool
  autoSync : Bool
  /-- `_moo_edit_get_default_encoding`. -/
  defaultEncoding : String
  /-- `_moo_file_get_normalized_name`. -/
  normalizedName : F → N
  /-- Whether `g_file_get_path` gives a path. -/
  isLocal : F → Bool

/-- `MooSaveChangesResponse`. -/
inductive SaveChangesResponse
  | save
  | cancel
  | dontSave
deriving DecidableEq

/-- How `_moo_edit_save_file` ends. -/
inductive SaveResult
  | saved
  | encodingError
  | failed
deriving DecidableEq

/-- The answers of the dialogs and handlers of one request, and what its reads and writes of
files come to. -/
structure Answers (F : Type) where
  /-- `_moo_edit_save_changes_dialog`. -/
  saveChanges : ℕ → SaveChangesResponse
  /-- `_moo_edit_save_multiple_changes_dialog`, and the documents it is told to save. -/
  saveMultiple : List ℕ → SaveChangesResponse
  toSave : ℕ → Bool
  /-- `_moo_edit_save_as_dialog`. -/
  saveAsDialog : ℕ → Option (F × Option String)
  /-- `_moo_edit_overwrite_modified_dialog`. -/
  overwriteModified : ℕ → Bool
  /-- `_moo_edit_reload_modified_dialog`. -/
  reloadModified : ℕ → Bool
  /-- `_moo_edit_save_error_enc_dialog`. -/
  saveErrorEnc : ℕ → Bool
  /-- Whether the `before-save` handlers let a document be saved. -/
  beforeSave : ℕ → Bool
  /-- Whether the `will-save` handlers change the text, and if so whether text is left. -/
  willSave : ℕ → Option Bool
  /-- Whether the `before-close` handlers let a window be closed. -/
  beforeClose : ℕ → Bool
  saveFile : ℕ → F → String → SaveResult
  /-- The encoding a file was read in and whether it has any text, given the encoding asked for
  and the one from the history. -/
  loadFile : F → Option String → Option String → Option (String × Bool)
  /-- `_moo_edit_file_is_new`. -/
  fileIsNew : F → Bool
  /-- The encoding that the history has for a file. -/
  historyEncoding : F → Option String
  /-- The document that a window turns to when its active one goes, given the rest. -/
  nextActive : List ℕ → ℕ

variable {F N : Type}

/-- A user who saves everything and refuses nothing, with files that can all be read and
written. -/
def Answers.agreeing (file : F) : Answers F where
  saveChanges _ := .save
  saveMultiple _ := .save
  toSave _ := true
  saveAsDialog _ := some (file, none)
  overwriteModified _ := true
  reloadModified _ := true
  saveErrorEnc _ := true
  beforeSave _ := true
  willSave _ := none
  beforeClose _ := true
  saveFile _ _ _ := .saved
  loadFile _ encoding _ := some (encoding.getD "UTF-8", true)
  fileIsNew _ := false
  historyEncoding _ := none
  nextActive docs := docs.headD 0

/-- What a closing request tells of a document: that it was saved, or that the user was asked
about it and chose not to save it. -/
inductive Notice
  | saved (doc : ℕ)
  | declined (doc : ℕ)
deriving DecidableEq

/-- The documents of a window in the order of its tabs, and the active one. -/
structure EditWindow where
  docs : List ℕ
  activeDoc : Option ℕ
deriving DecidableEq

/-- `MooEditor` with its windows and documents; `top` is the window last brought to the front. -/
structure MooEditor (F : Type) where
  windows : List ℕ
  windowless : List ℕ
  window : ℕ → EditWindow
  doc : ℕ → MooEdit F
  nextWindow : ℕ
  nextDoc : ℕ
  top : Option ℕ

namespace MooEditor

/-! ## Windows and their documents -/

/-- `moo_editor_get_docs`. -/
def getDocs (e : MooEditor F) : List ℕ := e.windows.flatMap (e.window · |>.docs) ++ e.windowless

/-- `get_top_window`, `moo_editor_get_active_window`. -/
def getTopWindow (e : MooEditor F) : Option ℕ :=
  (e.top.filter (· ∈ e.windows)).or e.windows.head?

/-- `moo_edit_get_window`. -/
def getWindow (e : MooEditor F) (d : ℕ) : Option ℕ :=
  e.windows.find? fun w => d ∈ (e.window w).docs

/-- Changes one window. -/
def setWindow (e : MooEditor F) (w : ℕ) (win : EditWindow) : MooEditor F :=
  { e with window := Function.update e.window w win }

/-- Changes one document. -/
def setDoc (e : MooEditor F) (d : ℕ) (doc : MooEdit F) : MooEditor F :=
  { e with doc := Function.update e.doc d doc }

/-- `moo_edit_window_set_active_doc`. -/
def windowSetActiveDoc (e : MooEditor F) (w d : ℕ) : MooEditor F :=
  if d ∈ (e.window w).docs then e.setWindow w { e.window w with activeDoc := some d } else e

/-- `moo_editor_set_active_window`. -/
def setActiveWindow (e : MooEditor F) (w : ℕ) : MooEditor F := { e with top := some w }

/-- `moo_editor_set_active_doc`. -/
def setActiveDoc (e : MooEditor F) (d : ℕ) : MooEditor F :=
  match e.getWindow d with
  | some w => (e.setActiveWindow w).windowSetActiveDoc w d
  | none => e

/-- The list with `d` after `a`, or in front when `a` is not there. -/
def insertAfter (d : ℕ) (a : Option ℕ) (docs : List ℕ) : List ℕ :=
  match a with
  | none => d :: docs
  | some a => docs.insertIdx (docs.idxOf a + 1) d

/-- `_moo_edit_window_insert_doc`, after the active document. -/
def insertDoc (e : MooEditor F) (w d : ℕ) : MooEditor F :=
  e.setWindow w
    { docs :=
        insertAfter d ((e.window w).activeDoc.filter (· ∈ (e.window w).docs)) (e.window w).docs
      activeDoc := some d }

/-- The document a window is left with when its active one goes. -/
def turnTo (a : Answers F) (docs : List ℕ) : Option ℕ :=
  if a.nextActive docs ∈ docs then some (a.nextActive docs) else docs.head?

/-- `_moo_edit_window_remove_doc`. -/
def removeDoc (a : Answers F) (e : MooEditor F) (w d : ℕ) : MooEditor F :=
  e.setWindow w
    { docs := (e.window w).docs.erase d
      activeDoc :=
        if (e.window w).activeDoc = some d then turnTo a ((e.window w).docs.erase d)
        else (e.window w).activeDoc }

/-- `create_window`. -/
def createWindow (e : MooEditor F) : ℕ × MooEditor F :=
  (e.nextWindow,
    { e with
      windows := e.windows ++ [e.nextWindow]
      window := Function.update e.window e.nextWindow ⟨[], none⟩
      nextWindow := e.nextWindow + 1 })

/-- A new document object, untitled and in no window. -/
def newObject (env : Env F N) (e : MooEditor F) : ℕ × MooEditor F :=
  (e.nextDoc,
    { e with
      doc := Function.update e.doc e.nextDoc
        { file := none, encoding := env.defaultEncoding, modified := false, clean := false
          modifiedOnDisk := false, isNew := false, busy := false, hasText := false }
      nextDoc := e.nextDoc + 1 })

/-- A new empty document in a window. -/
def addNewDoc (env : Env F N) (e : MooEditor F) (w : ℕ) : MooEditor F :=
  (e.newObject env).2.insertDoc w (e.newObject env).1

/-- `moo_editor_new_window`. -/
def newWindow (env : Env F N) (e : MooEditor F) : ℕ × MooEditor F :=
  if env.allowEmptyWindow then e.createWindow
  else (e.createWindow.1, e.createWindow.2.addNewDoc env e.createWindow.1)

/-- The normalized name of a document's file. -/
def normName (env : Env F N) (e : MooEditor F) (d : ℕ) : Option N :=
  (e.doc d).file.map env.normalizedName

/-- `moo_editor_get_doc_for_file`: the documents outside windows first. -/
def getDocForFile [DecidableEq N] (env : Env F N) (e : MooEditor F) (file : F) : Option ℕ :=
  (e.windowless ++ e.windows.flatMap (e.window · |>.docs)).find?
    (e.normName env · = some (env.normalizedName file))

/-! ## Saving -/

/-- `normalize_encoding`. -/
def normalizeEncoding (encoding : Option String) : Option String :=
  encoding.filter fun enc => enc ≠ "" && enc ≠ "auto"

/-- What the `will-save` handlers do to a document. -/
def willSave (a : Answers F) (e : MooEditor F) (d : ℕ) : MooEditor F :=
  match a.willSave d with
  | some hasText => e.setDoc d { e.doc d with modified := true, hasText }
  | none => e

/-- `moo_edit_save_local` once the file is written. -/
def fileSaved (e : MooEditor F) (d : ℕ) (file : F) (encoding : String) : MooEditor F :=
  e.setDoc d { (e.doc d).clearStatus with file := some file, encoding }

/-- How writing a document ends, the second try in UTF-8 included: the encoding it is written
in, if it is. -/
def written (a : Answers F) (d : ℕ) (file : F) (encoding : Option String) : Option String :=
  match a.saveFile d file ((normalizeEncoding encoding).getD "UTF-8") with
  | .saved => some ((normalizeEncoding encoding).getD "UTF-8")
  | .failed => none
  | .encodingError =>
    if a.saveErrorEnc d && a.saveFile d file "UTF-8" = .saved then some "UTF-8" else none

/-- `do_save`. -/
def doSave (a : Answers F) (e : MooEditor F) (d : ℕ) (file : F) (encoding : Option String) :
    Bool × MooEditor F :=
  if a.beforeSave d then
    match written a d file encoding with
    | some enc => (true, (e.willSave a d).fileSaved d file enc)
    | none => (false, e.willSave a d)
  else (false, e)

/-- The file and the encoding of `moo_editor_save_as`: as asked for, or from the dialog. -/
def saveAsTarget (a : Answers F) (e : MooEditor F) (d : ℕ) (info : Option (F × Option String)) :
    Option (F × Option String) :=
  match info with
  | none => a.saveAsDialog d
  | some (file, encoding) => some (file, some (encoding.getD (e.doc d).encoding))

/-- `moo_editor_save_as`. -/
def saveAs (a : Answers F) (e : MooEditor F) (d : ℕ) (info : Option (F × Option String)) :
    Bool × MooEditor F :=
  if (e.doc d).busy then (false, e)
  else
    match saveAsTarget a e d info with
    | none => (false, e)
    | some (file, encoding) => e.doSave a d file encoding

/-- `moo_editor_save`. -/
def save (env : Env F N) (a : Answers F) (e : MooEditor F) (d : ℕ) : Bool × MooEditor F :=
  if (e.doc d).busy then (false, e)
  else
    match (e.doc d).file with
    | none => e.saveAs a d none
    | some file =>
      if !env.embedded && (e.doc d).modifiedOnDisk && !a.overwriteModified d then (false, e)
      else e.doSave a d file (some (e.doc d).encoding)

/-! ## Loading -/

/-- `MooOpenInfo`. -/
structure OpenInfo (F : Type) where
  file : F
  encoding : Option String
  reload : Bool
  createNew : Bool
  newWindow : Bool

/-- `_moo_edit_load_file`. -/
def editLoadFile (a : Answers F) (e : MooEditor F) (d : ℕ) (file : F)
    (encoding cached : Option String) : Bool × MooEditor F :=
  if (e.doc d).busy then (false, e)
  else
    match a.loadFile file (normalizeEncoding encoding) (normalizeEncoding cached) with
    | some (used, hasText) =>
      (true, e.setDoc d { (e.doc d).clearStatus with file := some file, encoding := used, hasText })
    | none => (false, e)

/-- `_moo_edit_reload_file`. -/
def editReloadFile (a : Answers F) (e : MooEditor F) (d : ℕ) (encoding : Option String) :
    Bool × MooEditor F :=
  match (e.doc d).file with
  | none => (false, e)
  | some file => e.editLoadFile a d file (some (encoding.getD (e.doc d).encoding)) none

/-- `moo_editor_reload`. -/
def reload (env : Env F N) (a : Answers F) (e : MooEditor F) (d : ℕ) (encoding : Option String) :
    Bool × MooEditor F :=
  if (e.doc d).busy || (e.doc d).isUntitled then (false, e)
  else if !env.embedded && (e.doc d).unsaved && !a.reloadModified d then (false, e)
  else e.editReloadFile a d encoding

/-- The file put in a document that does not show it yet: an empty document under a new name,
or what the file holds. -/
def fillDoc (env : Env F N) (a : Answers F) (e : MooEditor F) (d : ℕ) (info : OpenInfo F) :
    Bool × MooEditor F :=
  if info.createNew && a.fileIsNew info.file then
    (true, e.setDoc d
      { (e.doc d).clearStatus with
        isNew := true
        file := some info.file
        encoding := info.encoding.getD env.defaultEncoding })
  else
    e.editLoadFile a d info.file info.encoding
      (if info.encoding = none then a.historyEncoding info.file else none)

/-- The active document of a window, if it is empty. -/
def reusableDoc (e : MooEditor F) (window : Option ℕ) : Option ℕ :=
  (window.bind (e.window · |>.activeDoc)).filter (e.doc · |>.isEmpty)

/-- The window a new document goes to. -/
def targetWindow (e : MooEditor F) (window : Option ℕ) (newWindow : Bool) : ℕ × MooEditor F :=
  match window with
  | some w => if newWindow then e.createWindow else (w, e)
  | none => e.createWindow

/-- A file that no document shows put in a new document. -/
def loadNewObject (env : Env F N) (a : Answers F) (e : MooEditor F) (info : OpenInfo F)
    (window : Option ℕ) : Option ℕ × MooEditor F :=
  match (e.newObject env).2.fillDoc env a (e.newObject env).1 info with
  | (false, e') => (none, e')
  | (true, e') =>
    (some (e.newObject env).1,
      ((e'.targetWindow window info.newWindow).2.insertDoc
        (e'.targetWindow window info.newWindow).1 (e.newObject env).1).setActiveDoc
          (e.newObject env).1)

/-- A file that no document shows put in the empty active document of the window, or in a new
one. -/
def loadNewFile (env : Env F N) (a : Answers F) (e : MooEditor F) (info : OpenInfo F)
    (window : Option ℕ) : Option ℕ × MooEditor F :=
  match e.reusableDoc window with
  | some d =>
    match e.fillDoc env a d info with
    | (true, e') => (some d, e'.setActiveDoc d)
    | (false, e') => (none, e')
  | none => e.loadNewObject env a info window

/-- A file that a document already shows: the document, reloaded when asked for. -/
def loadOpenFile (a : Answers F) (e : MooEditor F) (info : OpenInfo F) (d : ℕ) :
    Option ℕ × MooEditor F :=
  if info.reload then
    match e.editReloadFile a d info.encoding with
    | (true, e') => (some d, e'.setActiveDoc d)
    | (false, e') => (none, e')
  else (some d, e.setActiveDoc d)

/-- `moo_editor_load_file`. -/
def loadFile [DecidableEq N] (env : Env F N) (a : Answers F) (e : MooEditor F) (info : OpenInfo F)
    (window : Option ℕ) : Option ℕ × MooEditor F :=
  if env.isLocal info.file then
    match e.getDocForFile env info.file with
    | some d => e.loadOpenFile a info d
    | none => e.loadNewFile env a info (window.or e.getTopWindow)
  else (none, e)

/-- The loop of `_moo_editor_open_files`: the first failure ends it. -/
def openFilesLoop [DecidableEq N] (env : Env F N) (e : MooEditor F) (window : Option ℕ) :
    List (OpenInfo F × Answers F) → Option ℕ → Bool × Option ℕ × MooEditor F
  | [], front => (true, front, e)
  | (info, a) :: files, front =>
    match e.loadFile env a info (window.or e.getTopWindow) with
    | (some d, e') => openFilesLoop env e' (window.or e.getTopWindow) files (some d)
    | (none, e') => (false, front, e')

/-- `moo_editor_open_files`: the last document loaded is brought to the front. -/
def openFiles [DecidableEq N] (env : Env F N) (e : MooEditor F) (window : Option ℕ)
    (files : List (OpenInfo F × Answers F)) : Bool × MooEditor F :=
  match e.openFilesLoop env window files none with
  | (ok, some d, e') => (ok, e'.setActiveDoc d)
  | (_, none, e') => (false, e')

/-! ## Closing -/

/-- `find_busy`. -/
def findBusy (e : MooEditor F) (docs : List ℕ) : Option ℕ := docs.find? (e.doc · |>.busy)

/-- `find_modified`. -/
def findModified (e : MooEditor F) (docs : List ℕ) : List ℕ := docs.filter (e.doc · |>.unsaved)

/-- The documents chosen in the dialog are saved in order; the first failure ends it. -/
def saveDocs (env : Env F N) (a : Answers F) (e : MooEditor F) :
    List ℕ → Bool × MooEditor F × List Notice
  | [] => (true, e, [])
  | d :: docs =>
    match e.save env a d with
    | (false, e') => (false, e', [])
    | (true, e') =>
      ((saveDocs env a e' docs).1, (saveDocs env a e' docs).2.1,
        .saved d :: (saveDocs env a e' docs).2.2)

/-- The question about one unsaved document. -/
def askOne (env : Env F N) (a : Answers F) (e : MooEditor F) (d : ℕ) :
    Bool × MooEditor F × List Notice :=
  match a.saveChanges d with
  | .save => e.saveDocs env a [d]
  | .cancel => (false, e, [])
  | .dontSave => (true, e, [.declined d])

/-- The question about several unsaved documents. -/
def askSeveral (env : Env F N) (a : Answers F) (e : MooEditor F) (modified : List ℕ) :
    Bool × MooEditor F × List Notice :=
  match a.saveMultiple modified with
  | .save =>
    ((e.saveDocs env a (modified.filter a.toSave)).1,
      (e.saveDocs env a (modified.filter a.toSave)).2.1,
      (modified.filter (!a.toSave ·)).map .declined ++
        (e.saveDocs env a (modified.filter a.toSave)).2.2)
  | .cancel => (false, e, [])
  | .dontSave => (true, e, modified.map .declined)

/-- The window shows the document it asks about. -/
def showIn (e : MooEditor F) (window : Option ℕ) (d : ℕ) : MooEditor F :=
  match window with
  | some w => e.windowSetActiveDoc w d
  | none => e

/-- The question about the unsaved documents, written out in `moo_editor_before_close_window` and
`close_docs_real`; a single one is shown in its window. -/
def askToSave (env : Env F N) (a : Answers F) (e : MooEditor F) (window : ℕ → Option ℕ)
    (modified : List ℕ) : Bool × MooEditor F × List Notice :=
  match modified with
  | [] => (true, e, [])
  | [d] => (e.showIn (window d) d).askOne env a d
  | modified => e.askSeveral env a modified

/-- `moo_editor_before_close_window`. -/
def beforeCloseWindow (env : Env F N) (a : Answers F) (e : MooEditor F) (w : ℕ) :
    Bool × MooEditor F × List Notice :=
  match e.findBusy (e.window w).docs with
  | some busy => (false, e.setActiveDoc busy, [])
  | none => e.askToSave env a (fun _ => some w) (e.findModified (e.window w).docs)

/-- `do_close_doc`. -/
def doCloseDoc (a : Answers F) (e : MooEditor F) (d : ℕ) : MooEditor F :=
  match e.getWindow d with
  | some w => removeDoc a e w d
  | none => { e with windowless := e.windowless.erase d }

/-- Closing documents one after the other. -/
def doCloseDocs (a : Answers F) (e : MooEditor F) (docs : List ℕ) : MooEditor F :=
  docs.foldl (doCloseDoc a) e

/-- `do_close_window`. -/
def doCloseWindow (a : Answers F) (e : MooEditor F) (w : ℕ) : MooEditor F :=
  { doCloseDocs a e (e.window w).docs with
    windows := (doCloseDocs a e (e.window w).docs).windows.erase w }

/-- `moo_editor_close_window`. -/
def closeWindow (env : Env F N) (a : Answers F) (e : MooEditor F) (w : ℕ) :
    Bool × MooEditor F × List Notice :=
  if w ∈ e.windows then
    if a.beforeClose w then
      match e.beforeCloseWindow env a w with
      | (true, e', notices) => (true, e'.doCloseWindow a w, notices)
      | (false, e', notices) => (false, e', notices)
    else (false, e, [])
  else (true, e, [])

/-- `close_docs_real`. -/
def closeDocsReal (env : Env F N) (a : Answers F) (e : MooEditor F) (docs : List ℕ) :
    Bool × MooEditor F × List Notice :=
  match e.askToSave env a e.getWindow (e.findModified docs) with
  | (true, e', notices) => (true, e'.doCloseDocs a docs, notices)
  | (false, e', notices) => (false, e', notices)

/-- A window without tabs gets a new document, unless empty windows are allowed. -/
def refillWindow (env : Env F N) (e : MooEditor F) (window : Option ℕ) : MooEditor F :=
  match window with
  | some w =>
    if (e.window w).docs.isEmpty && !env.allowEmptyWindow then e.addNewDoc env w else e
  | none => e

/-- `moo_editor_close_docs`. Only the window of the first document is looked at when tabs have
run out. -/
def closeDocs (env : Env F N) (a : Answers F) (e : MooEditor F) (docs : List ℕ) :
    Bool × MooEditor F × List Notice :=
  match docs with
  | [] => (true, e, [])
  | first :: _ =>
    match e.findBusy docs with
    | some busy => (false, e.setActiveDoc busy, [])
    | none =>
      match e.closeDocsReal env a docs with
      | (true, e', notices) => (true, e'.refillWindow env (e.getWindow first), notices)
      | (false, e', notices) => (false, e', notices)

/-- The loop of `_moo_editor_close_all`. -/
def closeWindows (env : Env F N) (a : Answers F) (e : MooEditor F) :
    List ℕ → Bool × MooEditor F × List Notice
  | [] => (true, e, [])
  | w :: windows =>
    match e.closeWindow env a w with
    | (true, e', notices) =>
      ((closeWindows env a e' windows).1, (closeWindows env a e' windows).2.1,
        notices ++ (closeWindows env a e' windows).2.2)
    | (false, e', notices) => (false, e', notices)

/-- `_moo_editor_close_all`. -/
def closeAll (env : Env F N) (a : Answers F) (e : MooEditor F) : Bool × MooEditor F × List Notice :=
  e.closeWindows env a e.windows

/-! ## New documents -/

/-- The window of a new document: the one asked for, the one in front or a new one. -/
def newDocWindow (env : Env F N) (e : MooEditor F) (window : Option ℕ) : ℕ × MooEditor F :=
  match window.or e.getTopWindow with
  | some w => (w, e)
  | none => e.newWindow env

/-- A new document in that window. -/
def newDocIn (env : Env F N) (e : MooEditor F) (window : Option ℕ) : ℕ × MooEditor F :=
  ((e.newDocWindow env window).2.nextDoc,
    (e.newDocWindow env window).2.addNewDoc env (e.newDocWindow env window).1)

/-- `moo_editor_new_doc`. With automatic syncing the user is asked for a path at once (`saving`),
and the document goes away when none is given (`closing`). -/
def newDoc (env : Env F N) (saving closing : Answers F) (e : MooEditor F) (window : Option ℕ) :
    Option ℕ × MooEditor F :=
  if env.autoSync then
    match (e.newDocIn env window).2.saveAs saving (e.newDocIn env window).1 none with
    | (true, e') => (some (e.newDocIn env window).1, e')
    | (false, e') => (none, (e'.closeDocs env closing [(e.newDocIn env window).1]).2.1)
  else (some (e.newDocIn env window).1, (e.newDocIn env window).2)

end MooEditor

end Medit.Editor
