import Medit.Lsp.Server

/-!
# A language server without its documents

The calls of a server and its state do not depend on the documents that are attached to it.

## Main definitions

* `World.Core` — a server without the documents and what was sent.

## Main results

* `World.core_addDoc`, `World.core_removeDoc`, `World.core_docSaved` — the documents change nothing
  else.
-/

namespace Medit

open Calls

namespace World

/-- The calls that are queued. -/
def queuedCalls (queued : List Queued) : List Call :=
  queued.filterMap fun message =>
    match message with
    | .call call => some call
    | .notify _ => none

structure Core where
  state : LspServerState
  client : Option (Client ServerCall)
  calls : List Call
  quickExits : ℕ
  shuttingDown : Bool
  todo : List Todo
  made : List Call
  log : List Note
  starts : ℕ
  row : ℕ
  released : Bool

def core (w : World) : Core :=
  ⟨w.state, w.client, queuedCalls w.queued, w.quickExits, w.shuttingDown, w.todo, w.made, w.log,
    w.starts, w.row, w.released⟩

variable {w : World} {ldoc : LspDoc} {message : Outgoing}

@[simp] theorem queuedCalls_nil : queuedCalls [] = [] := rfl

@[simp] theorem queuedCalls_append {queued more : List Queued} :
    queuedCalls (queued ++ more) = queuedCalls queued ++ queuedCalls more :=
  List.filterMap_append

@[simp] theorem queuedCalls_call {call : Call} {queued : List Queued} :
    queuedCalls (.call call :: queued) = call :: queuedCalls queued := rfl

@[simp] theorem queuedCalls_notify {queued : List Queued} :
    queuedCalls (.notify message :: queued) = queuedCalls queued := rfl

/-! ## Documents -/

@[simp] theorem core_send : (w.send message).core = w.core := by
  unfold send
  split <;> rfl

@[simp] theorem core_notify : (w.notify message).core = w.core := by
  unfold notify
  split
  · rfl
  · simp [core]
  · exact core_send

@[simp] theorem core_setDoc : (w.setDoc ldoc).core = w.core := rfl

@[simp] theorem core_lspServerDidOpen {uri : Uri} {version : ℤ} {text : List Char} :
    (w.lspServerDidOpen uri version text).core = w.core := by
  unfold lspServerDidOpen
  split
  · rfl
  · split
    · rfl
    · exact core_notify

@[simp] theorem core_lspServerDidChange {uri : Uri} {version : ℤ} {text : List Char} :
    (w.lspServerDidChange uri version text).core = w.core := by
  unfold lspServerDidChange
  repeat' split
  all_goals simp

@[simp] theorem core_lspServerDidSave {uri : Uri} {text : List Char} :
    (w.lspServerDidSave uri text).core = w.core := by
  unfold lspServerDidSave
  split <;> simp

@[simp] theorem core_lspServerDidClose {uri : Uri} : (w.lspServerDidClose uri).core = w.core := by
  unfold lspServerDidClose
  split
  · rfl
  · exact core_notify

@[simp] theorem core_lspDocOpen : (w.lspDocOpen ldoc).core = w.core := by
  unfold lspDocOpen
  split <;> simp

@[simp] theorem core_sendDidChange : (w.sendDidChange ldoc).core = w.core := by
  unfold sendDidChange
  split <;> simp

@[simp] theorem core_lspDocFlush : (w.lspDocFlush ldoc).core = w.core := by
  unfold lspDocFlush
  split <;> simp

@[simp] theorem core_docSaved : (w.docSaved ldoc).core = w.core := by
  unfold docSaved
  split <;> simp

@[simp] theorem core_setText {doc : ℕ} {text : List Char} : (w.setText doc text).core = w.core := rfl

@[simp] theorem core_bufferChanged : (w.bufferChanged ldoc).core = w.core := by
  unfold bufferChanged
  split <;> rfl

@[simp] theorem core_addDoc {doc : ℕ} {uri : Uri} : (w.addDoc doc uri).core = w.core := by
  unfold addDoc
  split
  · rfl
  · exact core_lspDocOpen

@[simp] theorem core_removeDoc {doc : ℕ} : (w.removeDoc doc).core = w.core := by
  unfold removeDoc
  split
  · rfl
  · split
    · exact core_lspServerDidClose
    · rfl

theorem core_withDoc {doc : ℕ} {f : World → LspDoc → World} (hf : ∀ ldoc, (f w ldoc).core = w.core) :
    (w.withDoc doc f).core = w.core := by
  unfold withDoc
  split
  · exact hf _
  · rfl

@[simp] theorem core_foldl_lspDocOpen {ldocs : List LspDoc} :
    (ldocs.foldl lspDocOpen w).core = w.core := by
  induction ldocs generalizing w with
  | nil => rfl
  | cons ldoc ldocs ih => rw [List.foldl_cons, ih, core_lspDocOpen]

@[simp] theorem core_serverStateChanged : w.serverStateChanged.core = w.core := by
  unfold serverStateChanged
  split <;> simp

/-! ## The server -/

@[simp] theorem core_setState {state : LspServerState} :
    (w.setState state).core = { w.core with state := state } := by
  unfold setState
  split
  · next h => rw [← h]; rfl
  · rw [core_serverStateChanged]; rfl

theorem flatMap_destroyNotes {queued : List Queued} :
    queued.flatMap Queued.destroyNotes = (queuedCalls queued).flatMap Call.destroyNotes := by
  induction queued with
  | nil => rfl
  | cons message queued ih => cases message <;> simp [ih, Queued.destroyNotes]

@[simp] theorem core_clearQueue :
    w.clearQueue.core =
      { w.core with calls := [], log := w.core.log ++ w.core.calls.flatMap Call.destroyNotes } := by
  unfold clearQueue
  rw [flatMap_destroyNotes]
  rfl

@[simp] theorem core_setFailed :
    w.setFailed.core =
      { w.core with
        state := .failed
        calls := []
        log := w.core.log ++ w.core.calls.flatMap Call.destroyNotes } := by
  unfold setFailed
  rw [core_setState]
  change ({ w.clearQueue.core with state := .failed } : Core) = _
  rw [core_clearQueue]

end World

end Medit
