import Medit.Library.CString
import Medit.Lsp.Json
import Medit.Lsp.Position

/-!
# Edits of a server

How `lsp-edits.cpp` reads the edits that a server answers with and applies them.

## Main definitions

* `LspTextEdit`, `textEditNew` — one edit.
* `lspTextEditsParse`, `lspWorkspaceEditParse` — the edits of one file and of several files.
* `applyEdit`, `lspTextEditsApply` — applying them.
-/

namespace Medit

open CString Paragraphs

/-- The name of a file, as bytes. -/
abbrev Path := List UInt8

structure LspTextEdit where
  path : Path
  startLine : ℤ
  startCharacter : ℤ
  endLine : ℤ
  endCharacter : ℤ
  newText : List Char
  deriving DecidableEq, Repr

/-! ## Reading -/

/-- `text_edit_new` -/
def textEditNew (path : Path) (object : Json.Object) : Option LspTextEdit := do
  let ((startLine, startCharacter), (endLine, endCharacter)) ←
    (Json.getObject object "range").bind Json.getRange
  let newText ← Json.getString object "newText"
  some ⟨path, startLine, startCharacter, endLine, endCharacter, newText⟩

/-- `compare_edits` -/
def compareEdits (first second : LspTextEdit) : ℤ :=
  if strcmp first.path second.path ≠ 0 then strcmp first.path second.path
  else if first.startLine ≠ second.startLine then second.startLine - first.startLine
  else second.startCharacter - first.startCharacter

/-- `edits_of_array` -/
def editsOfArray (edits : List LspTextEdit) : Option Path → Option (List Json) → List LspTextEdit
  | some path, some array =>
    array.foldl (fun edits node =>
      match node with
      | .object object =>
        match textEditNew path object with
        | some edit => edit :: edits
        | none => edits
      | _ => edits) edits
  | _, _ => edits

/-- `g_slist_sort` with `compare_edits`, which is stable. -/
def sortEdits (edits : List LspTextEdit) : List LspTextEdit :=
  edits.mergeSort fun first second => compareEdits first second ≤ 0

/-- `lsp_text_edits_parse` -/
def lspTextEditsParse (result : Option Json) (path : Option Path) : List LspTextEdit :=
  match result, path with
  | some (.array array), some path => sortEdits (editsOfArray [] (some path) (some array))
  | _, _ => []

/-- `lsp_path_from_uri`; what GIO says about the path of a URI is `filePath`. -/
def lspPathFromUri (filePath : List Char → Option Path) : Option (List Char) → Option Path
  | none => none
  | some [] => none
  | some uri => filePath uri

/-- One element of `documentChanges`. -/
def editsOfDocumentChange (filePath : List Char → Option Path) (edits : List LspTextEdit) :
    Json → List LspTextEdit
  | .object change =>
    -- a create, rename or delete of a file
    if Json.has change "kind" then edits
    else editsOfArray edits
      (lspPathFromUri filePath (Json.lookupString change ["textDocument", "uri"]))
      (Json.getArray change "edits")
  | _ => edits

/-- The edits of `changes`, a map of URIs to edits. -/
def editsOfChanges (filePath : List Char → Option Path) (edits : List LspTextEdit) :
    Option Json.Object → List LspTextEdit
  | some changes => (changes.map Prod.fst).foldl (fun edits uri =>
      editsOfArray edits (lspPathFromUri filePath (some uri.toList)) (Json.getArray changes uri))
      edits
  | none => edits

/-- The edits of `documentChanges`, an array. -/
def editsOfDocumentChanges (filePath : List Char → Option Path) (edits : List LspTextEdit) :
    Option (List Json) → List LspTextEdit
  | some documentChanges => documentChanges.foldl (editsOfDocumentChange filePath) edits
  | none => edits

/-- `lsp_workspace_edit_parse` -/
def lspWorkspaceEditParse (filePath : List Char → Option Path) : Option Json → List LspTextEdit
  | some (.object object) =>
    sortEdits (editsOfDocumentChanges filePath
      (editsOfChanges filePath [] (Json.getObject object "changes"))
      (Json.getArray object "documentChanges"))
  | _ => []

/-! ## Applying -/

/-- `apply_edit` -/
def applyEdit (encoding : LspPositionEncoding) (buffer : List Sym) (edit : LspTextEdit) :
    List Sym :=
  match positionToIter encoding buffer ⟨edit.startLine, edit.startCharacter⟩,
    positionToIter encoding buffer ⟨edit.endLine, edit.endCharacter⟩ with
  | some start, some stop =>
    let buffer := delete buffer start stop
    if edit.newText ≠ [] then insert buffer (min start stop) edit.newText else buffer
  | _, _ => buffer

/-- The documents of an editor: what is in the buffer of each file, nothing if it cannot be
opened, and the files that `moo_editor_open_path` has been asked for. -/
structure Editor where
  docs : Path → Option (List Sym)
  opened : List Path

/-- `moo_editor_open_path` -/
def Editor.openPath (editor : Editor) (path : Path) : Editor :=
  { editor with opened := editor.opened ++ [path] }

/-- Some edits of one file. -/
def Editor.applyEdits (encoding : LspPositionEncoding) (editor : Editor) (path : Path)
    (edits : List LspTextEdit) : Editor :=
  { editor with
    docs := Function.update editor.docs path
      ((editor.docs path).map fun buffer => edits.foldl (applyEdit encoding) buffer) }

/-- The loop of `lsp_text_edits_apply`, which takes the edits of one file at a time. -/
def applyFiles (encoding : LspPositionEncoding) : ℕ → List LspTextEdit → Editor → Editor
  | 0, _, editor => editor
  | _ + 1, [], editor => editor
  | fuel + 1, first :: l, editor =>
    applyFiles encoding fuel ((first :: l).dropWhile fun edit => edit.path = first.path)
      ((editor.openPath first.path).applyEdits encoding first.path
        ((first :: l).takeWhile fun edit => edit.path = first.path))

/-- `lsp_text_edits_apply` -/
def lspTextEditsApply (encoding : LspPositionEncoding) (edits : List LspTextEdit)
    (editor : Editor) : Editor :=
  applyFiles encoding edits.length edits editor

end Medit
