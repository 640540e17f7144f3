import Mathlib.Data.List.Chain
import Medit.Editor.Tabs

/-!
# Sessions

The windows and documents of the editor written to a session and loaded again. Loading goes
through the function that opens files for the user.

## Main definitions

* `EditorNode`, `WindowNode`, `DocNode`: a session.
* `MooEditor.saveSession`, `MooEditor.loadSession`: `_moo_editor_save_session` and
  `_moo_editor_load_session`.
* `restore`: what a window shows once some of its documents have been loaded.

## Main results

* `foldl_restore_eq_append`: every document is appended exactly when none is already open and no
  file comes right after an untitled document.
-/

namespace Medit.Editor

variable {F N : Type}

/-! ## The session -/

/-- How files are written in a session. -/
structure SessionEnv (F N : Type) extends Env F N where
  /-- `g_file_get_uri`. -/
  uri : F → String
  /-- `g_file_new_for_uri`. -/
  newForUri : String → F
  /-- `filename_from_utf8` and `g_filename_to_uri`, for a session without a version. -/
  oldUri : String → Option String

/-- A `document` element: its content and its properties. -/
structure DocNode where
  content : Option String
  encoding : Option String
  active : Bool

/-- A `window` element. -/
structure WindowNode where
  docs : List DocNode
  active : Bool

/-- The `editor` element. -/
structure EditorNode where
  version : Option String
  windows : List WindowNode

/-- `CURRENT_SESSION_VERSION`. -/
def currentSessionVersion : String := "2.0"

namespace MooEditor

/-! ## Saving -/

/-- `save_doc_session`, with the `active` property. -/
def saveDocSession (env : SessionEnv F N) (e : MooEditor F) (activeDoc : Option ℕ) (d : ℕ) :
    DocNode where
  content := ((e.doc d).file.map env.uri).filter (· ≠ "")
  encoding :=
    if ((e.doc d).file.map env.uri).any (· ≠ "") ∧ (e.doc d).encoding ≠ "" then
      some (e.doc d).encoding
    else none
  active := activeDoc = some d

/-- `save_window_session`, with the `active` property. -/
def saveWindowSession (env : SessionEnv F N) (e : MooEditor F) (activeWindow : Option ℕ) (w : ℕ) :
    WindowNode where
  docs := (e.window w).docs.map (e.saveDocSession env (e.window w).activeDoc)
  active := activeWindow = some w

/-- `_moo_editor_save_session`. -/
def saveSession (env : SessionEnv F N) (e : MooEditor F) : EditorNode where
  version := some currentSessionVersion
  windows := e.windows.map (e.saveWindowSession env e.getTopWindow)

/-! ## Loading -/

/-- The URI of a document element. -/
def DocNode.uri (env : SessionEnv F N) (fileIsUri : Bool) (node : DocNode) : Option String :=
  (if fileIsUri then node.content else node.content.bind env.oldUri).filter (· ≠ "")

variable [DecidableEq N]

/-- `load_doc_session`. -/
def loadDocSession (env : SessionEnv F N) (a : Answers F) (e : MooEditor F) (w : ℕ)
    (fileIsUri : Bool) (node : DocNode) : Option ℕ × MooEditor F :=
  match DocNode.uri env fileIsUri node with
  | none => e.newDoc env.toEnv a a (some w)
  | some uri =>
    e.loadFile env.toEnv a
      { file := env.newForUri uri, encoding := node.encoding
        reload := false, createNew := false, newWindow := false } (some w)

/-- The loop of `load_window_session`: the last document marked active is the active one. -/
def loadDocsSession (env : SessionEnv F N) (a : Answers F) (w : ℕ) (fileIsUri : Bool) :
    MooEditor F → List DocNode → Option ℕ → Option ℕ × MooEditor F
  | e, [], activeDoc => (activeDoc, e)
  | e, node :: nodes, activeDoc =>
    loadDocsSession env a w fileIsUri (e.loadDocSession env a w fileIsUri node).2 nodes
      (if node.active then (e.loadDocSession env a w fileIsUri node).1.or activeDoc else activeDoc)

/-- `load_window_session`. -/
def loadWindowSession (env : SessionEnv F N) (a : Answers F) (e : MooEditor F) (fileIsUri : Bool)
    (node : WindowNode) : MooEditor F :=
  match loadDocsSession env a e.nextWindow fileIsUri e.createWindow.2 node.docs none with
  | (some d, e') => e'.windowSetActiveDoc e.nextWindow d
  | (none, e') => e'

/-- The loop of `_moo_editor_load_session`: the last window marked active is the active one. -/
def loadWindowsSession (env : SessionEnv F N) (a : Answers F) (fileIsUri : Bool) :
    MooEditor F → List WindowNode → Option ℕ → Option ℕ × MooEditor F
  | e, [], activeWindow => (activeWindow, e)
  | e, node :: nodes, activeWindow =>
    loadWindowsSession env a fileIsUri (e.loadWindowSession env a fileIsUri node) nodes
      (if node.active then some e.nextWindow else activeWindow)

/-- `_moo_editor_load_session` on an `editor` element: one without a version has file names, one
with another version is left alone. -/
def loadSession (env : SessionEnv F N) (a : Answers F) (e : MooEditor F) (node : EditorNode) :
    MooEditor F :=
  if node.version.all (· = currentSessionVersion) then
    match loadWindowsSession env a node.version.isSome e node.windows none with
    | (some w, e') => e'.setActiveWindow w
    | (none, e') => e'
  else e

/-! ## What is shown -/

/-- What the user sees of a document: its file and its encoding, or that it is untitled. -/
def docShown (e : MooEditor F) (d : ℕ) : Option (F × String) :=
  (e.doc d).file.map fun file => (file, (e.doc d).encoding)

/-- What the user sees of a window: its documents and which one is active. -/
def windowShown (e : MooEditor F) (w : ℕ) : List (Option (F × String)) × Option ℕ :=
  ((e.window w).docs.map e.docShown, (e.window w).activeDoc.map (e.window w).docs.idxOf)

/-- What the user sees of the editor: its windows and which one is active. -/
def shown (e : MooEditor F) : List (List (Option (F × String)) × Option ℕ) × Option ℕ :=
  (e.windows.map e.windowShown, e.getTopWindow.map e.windows.idxOf)

end MooEditor

/-! ## What loading makes of a window -/

section Restore

variable {T : Type} {opened : T → Bool} {shown items : List (Option T)} {item : Option T}

/-- One more document loaded in a window: an untitled one comes last; a file that is open
elsewhere does not come, and others take the place of an untitled last document. -/
def restore (opened : T → Bool) (shown : List (Option T)) : Option T → List (Option T)
  | none => shown ++ [none]
  | some t =>
    if opened t then shown
    else if shown.getLast?.any Option.isNone then shown.dropLast ++ [some t]
    else shown ++ [some t]

/-- Whether a document is appended to what is shown. -/
def Appended (opened : T → Bool) (shown : List (Option T)) (item : Option T) : Prop :=
  ∀ t, item = some t → opened t = false ∧ shown.getLast?.any Option.isNone = false

theorem restore_of_appended (h : Appended opened shown item) :
    restore opened shown item = shown ++ [item] := by
  cases item with
  | none => rfl
  | some t =>
    obtain ⟨hopen, hlast⟩ := h t rfl
    simp [restore, hopen, hlast]

theorem restore_length_of_not_appended (h : ¬ Appended opened shown item) :
    (restore opened shown item).length = shown.length := by
  cases item with
  | none => simp [Appended] at h
  | some t =>
    rw [restore]
    split_ifs with hopen hlast
    · rfl
    · have hne : shown ≠ [] := by
        rintro rfl
        simp at hlast
      have hpos := List.length_pos_iff.mpr hne
      rw [List.length_append, List.length_dropLast, List.length_singleton]
      omega
    · simp [Appended, hopen, hlast] at h

theorem restore_length_le (opened : T → Bool) (shown : List (Option T)) (item : Option T) :
    (restore opened shown item).length ≤ shown.length + 1 := by
  by_cases h : Appended opened shown item
  · rw [restore_of_appended h]
    simp
  · rw [restore_length_of_not_appended h]
    omega

theorem foldl_restore_length_le (opened : T → Bool) (shown items : List (Option T)) :
    (items.foldl (restore opened) shown).length ≤ shown.length + items.length := by
  induction items generalizing shown with
  | nil => simp
  | cons item items ih =>
    have hone := restore_length_le opened shown item
    have hrest := ih (restore opened shown item)
    rw [List.foldl_cons, List.length_cons]
    omega

/-- Whether all documents are appended one after the other. -/
def AllAppended (opened : T → Bool) : List (Option T) → List (Option T) → Prop
  | _, [] => True
  | shown, item :: items => Appended opened shown item ∧
      AllAppended opened (shown ++ [item]) items

theorem foldl_restore_of_allAppended (h : AllAppended opened shown items) :
    items.foldl (restore opened) shown = shown ++ items := by
  induction items generalizing shown with
  | nil => simp
  | cons item items ih =>
    rw [List.foldl_cons, restore_of_appended h.1, ih h.2, List.append_assoc]
    rfl

/-- A document that is not appended is missing at the end. -/
theorem allAppended_of_foldl_restore (h : items.foldl (restore opened) shown = shown ++ items) :
    AllAppended opened shown items := by
  induction items generalizing shown with
  | nil => exact trivial
  | cons item items ih =>
    rw [List.foldl_cons] at h
    by_cases hone : Appended opened shown item
    · refine ⟨hone, ih ?_⟩
      rw [← restore_of_appended hone, h, restore_of_appended hone, List.append_assoc]
      rfl
    · have hlen := foldl_restore_length_le opened (restore opened shown item) items
      rw [h, restore_length_of_not_appended hone, List.length_append, List.length_cons] at hlen
      omega

/-- No file comes right after an untitled document. -/
def NoFileAfterUntitled (items : List (Option T)) : Prop :=
  items.IsChain fun x y => x = none → y = none

instance [DecidableEq T] (items : List (Option T)) : Decidable (NoFileAfterUntitled items) :=
  inferInstanceAs (Decidable (items.IsChain fun x y => x = none → y = none))

theorem allAppended_iff (opened : T → Bool) (shown items : List (Option T)) :
    AllAppended opened shown items ↔ NoFileAfterUntitled (shown.getLast?.toList ++ items) ∧
      ∀ t, some t ∈ items → opened t = false := by
  induction items generalizing shown with
  | nil =>
    simp only [AllAppended, NoFileAfterUntitled, true_iff]
    cases shown.getLast? <;> simp
  | cons item items ih =>
    rw [AllAppended, ih, NoFileAfterUntitled, NoFileAfterUntitled]
    have hlast : (shown ++ [item]).getLast?.toList = [item] := by simp
    rw [hlast]
    cases hs : shown.getLast? with
    | none => cases item <;> simp [Appended, hs]; tauto
    | some x => cases item <;> cases x <;> simp [Appended, hs]; tauto

/-- A window comes back as it was if and only if no file comes right after an untitled document
and no file is open elsewhere. -/
theorem foldl_restore_eq_iff : items.foldl (restore opened) [] = items ↔
    NoFileAfterUntitled items ∧ ∀ t, some t ∈ items → opened t = false := by
  have hiff := allAppended_iff opened [] items
  rw [List.getLast?_nil, Option.toList_none, List.nil_append] at hiff
  rw [← hiff]
  constructor
  · intro h
    exact allAppended_of_foldl_restore (by simpa using h)
  · intro h
    simpa using foldl_restore_of_allAppended h

end Restore

end Medit.Editor
