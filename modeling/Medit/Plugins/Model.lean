import Medit.Library.Attachments
import Medit.Editor.Model

/-!
# Plugins

Models `mooplugin.cpp` and the places of `mooeditor.cpp` and `mooeditwindow.cpp` that tell the
plugins of windows and documents. Plugin types are numbers. What a window or a document has under
the quark of a plugin's id is kept with the plugin, and in `PluginStore.left` while no plugin has
that id. A method that a class does not have is one that does nothing and agrees.

## Main definitions

* `Plugin`, `Plugin.attachWin`, `Plugin.detachDoc`, … — one plugin and what it is told.
* `PluginStore` — the registered plugins and the editor.
* `PluginStore.step` — registering, enabling, and what happens to windows and documents.
-/

namespace Medit.Plugins

open Editor

/-- What plugins are told of windows and documents. -/
abbrev Call := Attachments.Call ℕ ℕ

/-- Which types of objects the class of a plugin sets, and what the methods `init` and `create`
answer. -/
structure PluginClass where
  winPluginType : Bool
  docPluginType : Bool
  init : Bool
  createWin : ℕ → Bool
  createDoc : ℕ → Bool

/-- What there is under the id of a plugin: the windows and documents with an object of it, and
what plugins with that id were told. -/
structure Marks where
  winPlugins : Finset ℕ
  docPlugins : Finset ℕ
  calls : List Call

/-- `MooPlugin`. The types of its objects are only asked whether they are set. -/
structure Plugin extends Marks where
  id : List Char
  type : ℕ
  enabled : Bool
  initialized : Bool
  winPluginType : Bool
  docPluginType : Bool
  docs : List ℕ

namespace Plugin

variable (c : PluginClass) (p : Plugin)

/-- A method of the plugin is called. -/
def call (x : Call) : Plugin := { p with calls := p.calls ++ [x] }

/-- `plugin_init`. -/
def init : Bool × Plugin :=
  if !p.enabled || p.initialized then (true, p)
  else if c.init then (true, { p.call (.init true) with initialized := true })
  else (false, p.call (.init false))

/-- `plugin_deinit`. -/
def deinit : Plugin :=
  if !p.initialized then p else { p.call .deinit with initialized := false }

/-- The object of the plugin for a document, in `plugin_attach_doc`. -/
def createDocPlugin (window : Option ℕ) (doc : ℕ) : Plugin :=
  if !p.docPluginType then p
  else if c.createDoc doc then
    { p.call (.createItem window doc true) with docPlugins := insert doc p.docPlugins }
  else p.call (.createItem window doc false)

/-- `plugin_attach_doc`. -/
def attachDoc (window : Option ℕ) (doc : ℕ) : Plugin :=
  if !p.enabled then p
  else
    ({ p with docs := doc :: p.docs }.call (.attachItem window doc)).createDocPlugin c window doc

/-- The object of the plugin for a document goes, in `plugin_detach_doc`. -/
def destroyDocPlugin (window : Option ℕ) (doc : ℕ) : Plugin :=
  if doc ∈ p.docPlugins then
    { p.call (.destroyItem window doc) with docPlugins := p.docPlugins.erase doc }
  else p

/-- `plugin_detach_doc`. -/
def detachDoc (window : Option ℕ) (doc : ℕ) : Plugin :=
  if !p.enabled || doc ∉ p.docs then p
  else
    ({ p with docs := p.docs.erase doc }.destroyDocPlugin window doc).call (.detachItem window doc)

/-- The object of the plugin for a window, in `plugin_attach_win`. -/
def createWinPlugin (window : ℕ) : Plugin :=
  if !p.winPluginType then p
  else if c.createWin window then
    { p.call (.createHost window true) with winPlugins := insert window p.winPlugins }
  else p.call (.createHost window false)

/-- `plugin_attach_win`, for a window with the documents `docs`. -/
def attachWin (window : ℕ) (docs : List ℕ) : Plugin :=
  if !p.enabled then p
  else
    docs.foldl (fun p doc => p.attachDoc c (some window) doc)
      ((p.call (.attachHost window)).createWinPlugin c window)

/-- The object of the plugin for a window goes, in `plugin_detach_win`. -/
def destroyWinPlugin (window : ℕ) : Plugin :=
  if window ∈ p.winPlugins then
    { p.call (.destroyHost window) with winPlugins := p.winPlugins.erase window }
  else p

/-- `plugin_detach_win`. -/
def detachWin (window : ℕ) (docs : List ℕ) : Plugin :=
  if !p.enabled then p
  else
    ((docs.foldl (fun p doc => p.detachDoc (some window) doc) p).destroyWinPlugin window).call
      (.detachHost window)

variable {F : Type} (e : MooEditor F)

/-- The loop over the windows in `moo_plugin_register` and `plugin_enable`. -/
def attachWindows : Plugin :=
  e.windows.foldl (fun p w => p.attachWin c w (e.window w).docs) p

/-- The loop over the windows in `plugin_disable`. -/
def detachWindows : Plugin := e.windows.foldl (fun p w => p.detachWin w (e.window w).docs) p

/-- `plugin_enable`, with its assertion. -/
def enable : Option (Bool × Plugin) :=
  if p.enabled then some (true, p)
  else if p.initialized then none
  else
    match { p with enabled := true }.init c with
    | (false, p') => some (false, { p' with enabled := false })
    | (true, p') => some (true, p'.attachWindows c e)

/-- `plugin_disable`, with its assertion. -/
def disable : Option Plugin :=
  if !p.enabled then some p
  else if !p.initialized then none
  else some { (p.detachWindows e).deinit with enabled := false }

/-- `moo_plugin_set_enabled`. -/
def setEnabled (enabled : Bool) : Option (Bool × Plugin) :=
  if enabled then p.enable c e else (p.disable e).map (true, ·)

end Plugin

/-! ## The registered plugins -/

/-- `PluginStore`: the editor, the plugins in the order they were registered, and what is left of
plugins that are not. -/
structure PluginStore (F : Type) where
  editor : MooEditor F
  list : List Plugin
  left : List Char → Marks

namespace PluginStore

variable {F N : Type} (c : List Char → PluginClass) (s : PluginStore F)

/-- `moo_plugin_lookup`. -/
def lookup (id : List Char) : Option Plugin := s.list.find? (·.id = id)

/-- `moo_plugin_get`. -/
def get (type : ℕ) : Option Plugin := s.list.find? (·.type = type)

/-- A new object of a plugin type. -/
def newPlugin (id : List Char) (type : ℕ) (enabled : Bool) : Plugin :=
  { s.left id with
    id, type, enabled, initialized := false, winPluginType := (c id).winPluginType
    docPluginType := (c id).docPluginType, docs := [] }

/-- `moo_plugin_register`, given whether the info is right and whether the preferences have the
plugin enabled. -/
def register (id : List Char) (type : ℕ) (infoCheck enabled : Bool) : Bool × PluginStore F :=
  if id = [] || (s.get type).isSome || !infoCheck || (s.lookup id).isSome then (false, s)
  else
    match (s.newPlugin c id type enabled).init (c id) with
    | (false, p) => (false, { s with left := Function.update s.left id p.toMarks })
    | (true, p) => (true, { s with list := s.list ++ [p.attachWindows (c id) s.editor] })

/-- A plugin of the store has changed. -/
def setPlugin (p : Plugin) : PluginStore F :=
  { s with list := s.list.map fun q => if q.id = p.id then p else q }

/-- `moo_plugin_set_enabled` for the plugin with an id, as the preferences call it. -/
def setEnabled (id : List Char) (enabled : Bool) : Option (PluginStore F) :=
  match s.lookup id with
  | none => some s
  | some p => (p.setEnabled (c id) s.editor enabled).map fun r => s.setPlugin r.2

/-- `plugin_store_remove`. -/
def remove (p : Plugin) : PluginStore F :=
  { s with
    list := s.list.filter (·.id ≠ p.id)
    left := Function.update s.left p.id p.toMarks }

/-- `moo_plugin_unregister`. -/
def unregister (type : ℕ) : Option (PluginStore F) :=
  match s.get type with
  | none => some s
  | some p => (p.setEnabled (c p.id) s.editor false).map fun r => s.remove r.2

/-- `moo_plugin_shutdown`. -/
def shutdown : Option (PluginStore F) :=
  (s.list.map Plugin.type).foldlM (fun s type => s.unregister c type) s

/-! ## Windows and documents -/

/-- `_moo_window_attach_plugins`. -/
def windowAttachPlugins (w : ℕ) : PluginStore F :=
  { s with list := s.list.map fun p => p.attachWin (c p.id) w (s.editor.window w).docs }

/-- `_moo_window_detach_plugins`. -/
def windowDetachPlugins (w : ℕ) : PluginStore F :=
  { s with list := s.list.map fun p => p.detachWin w (s.editor.window w).docs }

/-- `_moo_doc_attach_plugins`. -/
def docAttachPlugins (window : Option ℕ) (d : ℕ) : PluginStore F :=
  { s with list := s.list.map fun p => p.attachDoc (c p.id) window d }

/-- `_moo_doc_detach_plugins`. -/
def docDetachPlugins (window : Option ℕ) (d : ℕ) : PluginStore F :=
  { s with list := s.list.map fun p => p.detachDoc window d }

/-- `create_window`. -/
def createWindow : PluginStore F :=
  { s with editor := s.editor.createWindow.2 }.windowAttachPlugins c s.editor.createWindow.1

/-- `_moo_edit_window_insert_tab`, for a document in no window. -/
def insertTab (w d : ℕ) : PluginStore F :=
  if (s.editor.getWindow d).isSome then s
  else { s with editor := s.editor.insertDoc w d }.docAttachPlugins c (some w) d

/-- A new document in a window. -/
def newDoc (env : Env F N) (w : ℕ) : PluginStore F :=
  { s with editor := (s.editor.newObject env).2 }.insertTab c w (s.editor.newObject env).1

/-- `_moo_edit_window_remove_doc`: the document leaves the window when the plugins were told. -/
def removeDoc (a : Answers F) (w d : ℕ) : PluginStore F :=
  if d ∈ (s.editor.window w).docs then
    { s.docDetachPlugins (some w) d with editor := MooEditor.removeDoc a s.editor w d }
  else s

/-- `do_close_doc`. -/
def doCloseDoc (a : Answers F) (d : ℕ) : PluginStore F :=
  match s.editor.getWindow d with
  | some w => s.removeDoc a w d
  | none =>
    { s with
      editor := { s.editor with windowless := s.editor.windowless.erase d } }.docDetachPlugins
      none d

/-- `do_close_window`. -/
def doCloseWindow (a : Answers F) (w : ℕ) : PluginStore F :=
  let s' := (s.editor.window w).docs.foldl (fun s d => s.doCloseDoc a d) s
  { s' with editor := { s'.editor with windows := s'.editor.windows.erase w } }.windowDetachPlugins
    w

/-- `moo_editor_close_window` once the user has agreed. -/
def closeWindow (a : Answers F) (w : ℕ) : PluginStore F :=
  if w ∈ s.editor.windows then s.doCloseWindow a w else s

end PluginStore

/-- What can happen. -/
inductive Op (F N : Type)
  | register (id : List Char) (type : ℕ) (infoCheck enabled : Bool)
  | setEnabled (id : List Char) (enabled : Bool)
  | unregister (type : ℕ)
  | shutdown
  | setWinPluginType (id : List Char)
  | setDocPluginType (id : List Char)
  | createWindow
  | newDoc (env : Env F N) (w : ℕ)
  | insertTab (w d : ℕ)
  | removeDoc (a : Answers F) (w d : ℕ)
  | doCloseDoc (a : Answers F) (d : ℕ)
  | closeWindow (a : Answers F) (w : ℕ)

variable {F N : Type}

/-- Windows that are asked for are windows of the editor. -/
def Op.Valid (s : PluginStore F) : Op F N → Prop
  | .newDoc _ w | .insertTab w _ | .removeDoc _ w _ => w ∈ s.editor.windows
  | _ => True

namespace PluginStore

/-- One of them happens, with what the classes of the plugins answer meanwhile. There is no state
after a failed assertion. -/
def step (c : List Char → PluginClass) (s : PluginStore F) : Op F N → Option (PluginStore F)
  | .register id type infoCheck enabled => some (s.register c id type infoCheck enabled).2
  | .setEnabled id enabled => s.setEnabled c id enabled
  | .unregister type => s.unregister c type
  | .shutdown => s.shutdown c
  | .setWinPluginType id =>
    some ((s.lookup id).elim s fun p => s.setPlugin { p with winPluginType := true })
  | .setDocPluginType id =>
    some ((s.lookup id).elim s fun p => s.setPlugin { p with docPluginType := true })
  | .createWindow => some (s.createWindow c)
  | .newDoc env w => some (s.newDoc c env w)
  | .insertTab w d => some (s.insertTab c w d)
  | .removeDoc a w d => some (s.removeDoc a w d)
  | .doCloseDoc a d => some (s.doCloseDoc a d)
  | .closeWindow a w => some (s.closeWindow a w)

/-- An editor without windows, before any plugin is registered. -/
def start (e : MooEditor F) : PluginStore F :=
  { editor := { e with windows := [], windowless := [] }, list := [], left := fun _ => ⟨∅, ∅, []⟩ }

/-- The stores of all runs. -/
inductive Run (N : Type) (e : MooEditor F) : PluginStore F → Prop
  | start : Run N e (start e)
  | step {s s' : PluginStore F} (c : List Char → PluginClass) (op : Op F N) :
      Run N e s → op.Valid s → s.step c op = some s' → Run N e s'

end PluginStore

end Medit.Plugins
