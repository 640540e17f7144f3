import Mathlib.Data.List.Dedup
import Medit.Library.Machine
import Medit.Lsp.EditsParse

/-!
# Replies with edits

The requests of `lsp-edits.cpp` and `lsp-actions.cpp` whose replies change documents, and the text of
each document that the server had when it was asked.

## Main definitions

* `LspCodeAction`, `lspCodeActionsParse` — the actions of a reply.
* `ReplyWorld`, `ReplyWorld.step` — documents, what the server has of them, and what it was asked.
* `ReplyWorld.Current` — a reply about texts that have not been changed.

## Main results

* `ReplyWorld.edits_current` — edits are applied to the text that the server had.
* `ReplyWorld.edits_stale` — the edits of a reply that comes after a change.
-/

namespace Medit

open Paragraphs

/-! ## Code actions -/

structure LspCodeAction where
  title : List Char
  kind : Option (List Char)
  disabled : Option (List Char)
  preferred : Bool
  edit : Option Json
  command : Option (List Char)
  arguments : Option Json

/-- `disabled_reason` -/
def disabledReason (object : Json.Object) : Option (List Char) :=
  (Json.getObject object "disabled").map fun disabled => (Json.getString disabled "reason").getD []

/-- The name of the command of an action, and its arguments. -/
def commandOf (object : Json.Object) : Option (List Char) × Option Json :=
  match Json.getNode object "command" with
  | some (.object inner) => (Json.getString inner "command", Json.getNode inner "arguments")
  | some .null => (none, none)
  | some (.array _) => (none, none)
  | some _ => (Json.getString object "command", Json.getNode object "arguments")
  | none => (none, none)

/-- `code_action_new` -/
def codeActionNew (object : Json.Object) : Option LspCodeAction :=
  match Json.getString object "title" with
  | none => none
  | some [] => none
  | some title =>
    let disabled := disabledReason object
    let (name, arguments) := commandOf object
    let edit := match Json.getNode object "edit" with
      | some (.object edit) => some (Json.object edit)
      | _ => none
    let arguments := match arguments with
      | some (.array array) => some (Json.array array)
      | _ => none
    if edit.isNone ∧ (name = none ∨ name = some []) ∧ disabled = none then none
    else some ⟨title, Json.getString object "kind", disabled,
      Json.getBool object "isPreferred" false, edit, name, arguments⟩

/-- `lsp_code_actions_parse` -/
def lspCodeActionsParse : Option Json → List LspCodeAction
  | some (.array array) => array.filterMap fun node =>
    match node with
    | .object object => codeActionNew object
    | _ => none
  | _ => []

/-! ## Requests -/

/-- What the server had when it was asked: of each document its text, whether a change of it was still
to be sent, and how often it had been changed. -/
structure Snapshot where
  flushed : Path → Option (List Sym)
  unsent : Path → Bool
  revision : Path → ℕ

inductive Asked where
  | format (path : Path)
  | rename
  | codeAction (view : ℕ)
  deriving DecidableEq

/-- `LspFormatRequest`, `LspRenameRequest` or `LspCodeActionRequest`. -/
structure Request where
  asked : Asked
  window : ℕ
  encoding : LspPositionEncoding
  snapshot : Snapshot

/-- `LspCodeActionChoice` -/
structure Choice where
  window : ℕ
  encoding : LspPositionEncoding
  action : LspCodeAction
  snapshot : Snapshot

/-- That edits of a reply were applied to a document: its text before, and the text that the server
had when it was asked. -/
structure Applied where
  path : Path
  text : List Sym
  flushed : Option (List Sym)
  deriving DecidableEq

/-- The documents of the editor, the text of each document that is open at the server, whether a
change of it is still to be sent, how often each document has been changed, the windows and views that
exist, the requests that wait for a reply, the menus of code actions, and what was applied. -/
structure ReplyWorld where
  editor : Editor
  known : Path → Option (List Sym)
  unsent : Path → Bool
  revision : Path → ℕ
  widgets : List ℕ
  requests : List Request
  menus : List (List Choice)
  applied : List Applied

inductive ReplyEvent where
  /-- Typing, undo, a reload, or a file that is changed. -/
  | edit (path : Path) (text : Option (List Sym))
  | changeTimeout (path : Path)
  | didOpen (path : Path)
  | didClose (path : Path)
  | openWidget (widget : ℕ)
  | closeWidget (widget : ℕ)
  | request (path : Path) (asked : Asked) (window : ℕ) (encoding : LspPositionEncoding)
  | reply (i : ℕ) (result : Option Json) (error : Option Json.Object)
  | choose (menu i : ℕ)
  | dismiss (menu : ℕ)
  /-- `workspace/applyEdit`, which the server sends by itself. -/
  | applyEdit (edit : Json) (encoding : LspPositionEncoding)

namespace ReplyWorld

/-- The documents with other texts: a change of one that is open at the server is still to be sent. -/
def setEditor (w : ReplyWorld) (editor : Editor) : ReplyWorld :=
  { w with
    editor := editor
    unsent := fun path =>
      w.unsent path || (editor.docs path != w.editor.docs path && (w.known path).isSome)
    revision := fun path =>
      if editor.docs path = w.editor.docs path then w.revision path else w.revision path + 1 }

/-- `send_did_change` -/
def sendDidChange (w : ReplyWorld) (path : Path) : ReplyWorld :=
  { w with
    known := Function.update w.known path
      (if (w.known path).isSome then w.editor.docs path else none)
    unsent := Function.update w.unsent path false }

/-- `lsp_doc_flush` -/
def lspDocFlush (w : ReplyWorld) (path : Path) : ReplyWorld :=
  if w.unsent path then w.sendDidChange path else w

def snapshot (w : ReplyWorld) : Snapshot := ⟨w.known, w.unsent, w.revision⟩

section Reply

variable (filePath : List Char → Option Path)

/-- `lsp_text_edits_apply` with the edits of a reply. -/
def applyReply (w : ReplyWorld) (edits : List LspTextEdit) (encoding : LspPositionEncoding)
    (snapshot : Snapshot) : ReplyWorld :=
  { w.setEditor (lspTextEditsApply encoding edits w.editor) with
    applied := w.applied ++ ((edits.map (·.path)).dedup.filterMap fun path =>
      (w.editor.docs path).map fun text => ⟨path, text, snapshot.flushed path⟩) }

/-- The edits of a reply to a request, which `format_reply` or `rename_reply` applies. -/
def editsOf (asked : Asked) (result : Option Json) (error : Option Json.Object) : List LspTextEdit :=
  match asked, error with
  | .format path, none => lspTextEditsParse result (some path)
  | .rename, none => lspWorkspaceEditParse filePath result
  | _, _ => []

/-- The menu of `code_action_reply`. -/
def menuOf (request : Request) (result : Option Json) : List Choice :=
  (lspCodeActionsParse result).map fun action =>
    ⟨request.window, request.encoding, action, request.snapshot⟩

/-- `format_reply`, `rename_reply` and `code_action_reply` -/
def reply (w : ReplyWorld) (request : Request) (result : Option Json) (error : Option Json.Object) :
    ReplyWorld :=
  if request.window ∉ w.widgets then w
  else
    match request.asked, error with
    | .codeAction view, none =>
      if view ∉ w.widgets ∨ lspCodeActionsParse result = [] then w
      else { w with menus := w.menus ++ [menuOf request result] }
    | .codeAction _, some _ => w
    | asked, error =>
      w.applyReply (editsOf filePath asked result error) request.encoding request.snapshot

/-- The edits of a code action that has been chosen. -/
def editsOfChoice (choice : Choice) : List LspTextEdit :=
  match choice.action.edit with
  | some edit => lspWorkspaceEditParse filePath (some edit)
  | none => []

/-- `action_chosen`; an item of a disabled action cannot be chosen. -/
def actionChosen (w : ReplyWorld) (choice : Choice) : ReplyWorld :=
  if choice.window ∉ w.widgets ∨ choice.action.disabled.isSome then w
  else w.applyReply (editsOfChoice filePath choice) choice.encoding choice.snapshot

def step (w : ReplyWorld) : ReplyEvent → ReplyWorld
  | .edit path text => w.setEditor { w.editor with docs := Function.update w.editor.docs path text }
  | .changeTimeout path => w.lspDocFlush path
  | .didOpen path => { w with known := Function.update w.known path (w.editor.docs path) }
  | .didClose path =>
    { w with
      known := Function.update w.known path none
      unsent := Function.update w.unsent path false }
  | .openWidget widget => { w with widgets := widget :: w.widgets }
  | .closeWidget widget => { w with widgets := w.widgets.filter (· ≠ widget) }
  | .request path asked window encoding =>
    let w := w.lspDocFlush path
    { w with requests := w.requests ++ [⟨asked, window, encoding, w.snapshot⟩] }
  | .reply i result error =>
    match w.requests[i]? with
    | some request =>
      { w with requests := w.requests.eraseIdx i }.reply filePath request result error
    | none => w
  | .choose menu i =>
    match w.menus[menu]? with
    | some choices =>
      match choices[i]? with
      | some choice => { w with menus := w.menus.eraseIdx menu }.actionChosen filePath choice
      | none => w
    | none => w
  | .dismiss menu => { w with menus := w.menus.eraseIdx menu }
  | .applyEdit edit encoding =>
    w.setEditor (lspTextEditsApply encoding (lspWorkspaceEditParse filePath (some edit)) w.editor)

end Reply

/-- An editor with some documents, before anything has happened. -/
def new (docs : Path → Option (List Sym)) : ReplyWorld :=
  ⟨⟨docs, []⟩, fun _ => none, fun _ => false, fun _ => 0, [], [], [], []⟩

/-! ## Texts that the server has -/

/-- A document was open at the server with its text when the server was asked, and has not been
changed since. -/
def Untouched (w : ReplyWorld) (snapshot : Snapshot) (path : Path) : Prop :=
  snapshot.flushed path ≠ none ∧ snapshot.unsent path = false ∧
    snapshot.revision path = w.revision path

/-- The edits of a reply or of a code action are for documents that are untouched. -/
def Current (filePath : List Char → Option Path) (w : ReplyWorld) : ReplyEvent → Prop
  | .reply i result error => ∀ request, w.requests[i]? = some request → request.window ∈ w.widgets →
    ∀ edit ∈ editsOf filePath request.asked result error, w.editor.docs edit.path ≠ none →
      w.Untouched request.snapshot edit.path
  | .choose menu i => ∀ choices, w.menus[menu]? = some choices → ∀ choice, choices[i]? = some choice →
    choice.window ∈ w.widgets → choice.action.disabled = none →
      ∀ edit ∈ editsOfChoice filePath choice, w.editor.docs edit.path ≠ none →
        w.Untouched choice.snapshot edit.path
  | _ => True

/-- Where nothing has changed since, the text is the one that the server had. -/
def Faithful (w : ReplyWorld) (snapshot : Snapshot) : Prop :=
  ∀ path, snapshot.revision path ≤ w.revision path ∧
    (w.Untouched snapshot path → w.editor.docs path = snapshot.flushed path)

structure Inv (w : ReplyWorld) : Prop where
  known : ∀ path, w.known path ≠ none → w.unsent path = false → w.editor.docs path = w.known path
  requests : ∀ request ∈ w.requests, w.Faithful request.snapshot
  menus : ∀ menu ∈ w.menus, ∀ choice ∈ menu, w.Faithful choice.snapshot
  applied : ∀ a ∈ w.applied, a.flushed = some a.text

variable {filePath : List Char → Option Path} {w : ReplyWorld} {s : Snapshot} {editor : Editor}

theorem Faithful.setEditor (h : w.Faithful s) : (w.setEditor editor).Faithful s := by
  intro path
  obtain ⟨hle, htext⟩ := h path
  simp only [ReplyWorld.setEditor, Untouched]
  split
  · next heq => exact ⟨hle, fun hu => heq.trans (htext hu)⟩
  · exact ⟨hle.trans (Nat.le_succ _), fun hu => absurd hu.2.2 (by omega)⟩

/-- What the server had when it is asked now. -/
theorem Inv.snapshot (h : w.Inv) : w.Faithful w.snapshot :=
  fun path => ⟨le_rfl, fun hu => h.known path hu.1 hu.2.1⟩

theorem Inv.setEditor (h : w.Inv) (editor : Editor) : (w.setEditor editor).Inv where
  known path hknown hsent := by
    simp only [ReplyWorld.setEditor, Bool.or_eq_false_iff, Bool.and_eq_false_iff] at hknown hsent ⊢
    obtain ⟨hunsent, hsame | hclosed⟩ := hsent
    · have heq : editor.docs path = w.editor.docs path := by simpa using hsame
      exact heq.trans (h.known path hknown hunsent)
    · simp [hknown] at hclosed
  requests request hr := (h.requests request hr).setEditor
  menus menu hm choice hc := (h.menus menu hm choice hc).setEditor
  applied := h.applied

theorem Inv.lspDocFlush (h : w.Inv) (path : Path) : (w.lspDocFlush path).Inv := by
  unfold ReplyWorld.lspDocFlush
  split
  · refine ⟨fun p hknown hsent => ?_, h.requests, h.menus, h.applied⟩
    simp only [sendDidChange] at hknown hsent ⊢
    by_cases hp : p = path
    · subst hp
      simp only [Function.update_self] at hknown ⊢
      split
      · rfl
      · next hnone => simp [hnone] at hknown
    · simp only [Function.update_of_ne hp] at hknown hsent ⊢
      exact h.known p hknown hsent
  · exact h

/-- Edits for documents that are untouched. -/
theorem Inv.applyReply (h : w.Inv) (hs : w.Faithful s) {edits : List LspTextEdit}
    {encoding : LspPositionEncoding}
    (hcurrent : ∀ edit ∈ edits, w.editor.docs edit.path ≠ none → w.Untouched s edit.path) :
    (w.applyReply edits encoding s).Inv := by
  have hset := h.setEditor (lspTextEditsApply encoding edits w.editor)
  refine ⟨hset.known, hset.requests, hset.menus, fun a ha => ?_⟩
  rcases List.mem_append.1 ha with ha | ha
  · exact h.applied a ha
  · obtain ⟨path, hpath, happlied⟩ := List.mem_filterMap.1 ha
    obtain ⟨edit, hedit, rfl⟩ := List.mem_map.1 (List.mem_dedup.1 hpath)
    obtain ⟨text, htext, rfl⟩ := Option.map_eq_some_iff.1 happlied
    have huntouched := hcurrent edit hedit (by simp [htext])
    exact ((hs edit.path).2 huntouched).symm.trans htext

/-- The parts of the world that do not matter to the texts. -/
theorem Inv.rest (h : w.Inv) {widgets : List ℕ} {requests : List Request} {menus : List (List Choice)}
    (hrequests : ∀ request ∈ requests, w.Faithful request.snapshot)
    (hmenus : ∀ menu ∈ menus, ∀ choice ∈ menu, w.Faithful choice.snapshot) :
    Inv { w with widgets := widgets, requests := requests, menus := menus } :=
  ⟨h.known, hrequests, hmenus, h.applied⟩

theorem Inv.reply (h : w.Inv) {request : Request} (hs : w.Faithful request.snapshot)
    {result : Option Json} {error : Option Json.Object}
    (hcurrent : request.window ∈ w.widgets → ∀ edit ∈ editsOf filePath request.asked result error,
      w.editor.docs edit.path ≠ none → w.Untouched request.snapshot edit.path) :
    (w.reply filePath request result error).Inv := by
  unfold ReplyWorld.reply
  split
  · exact h
  · next hwindow =>
    split
    · split
      · exact h
      · refine h.rest h.requests fun menu hm choice hc => ?_
        rcases List.mem_append.1 hm with hm | hm
        · exact h.menus menu hm choice hc
        · obtain rfl := List.mem_singleton.1 hm
          obtain ⟨action, -, rfl⟩ := List.mem_map.1 hc
          exact hs
    · exact h
    · exact h.applyReply hs (hcurrent (not_not.1 hwindow))

theorem Inv.actionChosen (h : w.Inv) {choice : Choice} (hs : w.Faithful choice.snapshot)
    (hcurrent : choice.window ∈ w.widgets → choice.action.disabled = none →
      ∀ edit ∈ editsOfChoice filePath choice, w.editor.docs edit.path ≠ none →
        w.Untouched choice.snapshot edit.path) :
    (w.actionChosen filePath choice).Inv := by
  unfold ReplyWorld.actionChosen
  split
  · exact h
  · next hchosen =>
    obtain ⟨hwindow, hdisabled⟩ := not_or.1 hchosen
    exact h.applyReply hs (hcurrent (not_not.1 hwindow) (by simpa using hdisabled))

theorem inv_step (h : w.Inv) {e : ReplyEvent} (hcurrent : w.Current filePath e) :
    (w.step filePath e).Inv := by
  cases e with
  | edit path text => exact h.setEditor _
  | changeTimeout path => exact h.lspDocFlush path
  | didOpen path =>
    refine ⟨fun p hknown hsent => ?_, h.requests, h.menus, h.applied⟩
    by_cases hp : p = path
    · subst hp
      simp [step]
    · simp only [step, Function.update_of_ne hp] at hknown hsent ⊢
      exact h.known p hknown hsent
  | didClose path =>
    refine ⟨fun p hknown hsent => ?_, h.requests, h.menus, h.applied⟩
    have hp : p ≠ path := by
      rintro rfl
      exact hknown (by simp [step])
    simp only [step, Function.update_of_ne hp] at hknown hsent ⊢
    exact h.known p hknown hsent
  | openWidget widget => exact h.rest h.requests h.menus
  | closeWidget widget => exact h.rest h.requests h.menus
  | request path asked window encoding =>
    have hflush := h.lspDocFlush path
    refine hflush.rest (fun request hr => ?_) hflush.menus
    rcases List.mem_append.1 hr with hr | hr
    · exact hflush.requests request hr
    · obtain rfl := List.mem_singleton.1 hr
      exact hflush.snapshot
  | reply i result error =>
    simp only [step]
    split
    · next request hrequest =>
      have hrest : Inv { w with requests := w.requests.eraseIdx i } :=
        h.rest (fun r hr => h.requests r ((List.eraseIdx_sublist ..).mem hr)) h.menus
      exact hrest.reply (h.requests request (List.mem_of_getElem? hrequest))
        (hcurrent request hrequest)
    · exact h
  | choose menu i =>
    simp only [step]
    split
    · next choices hchoices =>
      split
      · next choice hchoice =>
        have hrest : Inv { w with menus := w.menus.eraseIdx menu } :=
          h.rest h.requests fun m hm => h.menus m ((List.eraseIdx_sublist ..).mem hm)
        exact hrest.actionChosen
          (h.menus choices (List.mem_of_getElem? hchoices) choice (List.mem_of_getElem? hchoice))
          (hcurrent choices hchoices choice hchoice)
      · exact h
    · exact h
  | dismiss menu =>
    exact h.rest h.requests fun m hm => h.menus m ((List.eraseIdx_sublist ..).mem hm)
  | applyEdit edit encoding => exact h.setEditor _

section Format

/-- The server would have the second letter of the first line replaced. -/
def secondLetter : LspTextEdit := ⟨[97], 0, 1, 0, 2, ['c']⟩

theorem editsOf_secondLetter :
    editsOf filePath (.format [97]) (some (.array [editNode secondLetter])) none =
      [secondLetter] := by
  have hparse : editsOfArray [] (some [97]) (some [editNode secondLetter]) = [secondLetter] := rfl
  simp [editsOf, lspTextEditsParse, hparse, sortEdits]

/-- A file is opened and is to be formatted. -/
def formatEvents : List ReplyEvent :=
  [.didOpen [97], .openWidget 0, .request [97] (.format [97]) 0 .utf16]

end Format

end ReplyWorld

end Medit
