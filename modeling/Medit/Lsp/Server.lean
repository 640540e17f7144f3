import Medit.Lsp.Client
import Medit.Library.StringEq

/-!
# A language server and its documents

`lsp-server.cpp` with the parts of `lsp-client.cpp`, `lsp-doc.cpp` and `lsp-manager.cpp` that it
works with: one server object, the processes it starts one after another, the documents that are
attached to it, and what is sent to each process.

The callbacks that a client runs when it gives up its calls may call the server again. This is
possible between an event that ends a client and the one that goes on after it, which is in a list
of what is left to do.

## Main definitions

* `World` — the server and what is around it.
* `lspServerCall`, `initializeReply`, `clientExited`, `shutdown` — the server's functions.
* `sendDidChange`, `lspDocFlush`, `lspDocOpen` — the ones of a document.
* `World.step` — the events.
-/

namespace Medit

open Calls

inductive LspServerState where
  | starting
  | ready
  | failed
  deriving DecidableEq, Repr

abbrev Uri := List Char

/-- `LSP_SYNC_NONE` and `LSP_SYNC_FULL` -/
def lspSyncNone : ℤ := 0

def lspSyncFull : ℤ := 1

/-- `LSP_SYNC_INCREMENTAL` -/
def lspSyncIncremental : ℤ := 2

/-- `LSP_MAX_QUICK_EXITS` -/
def lspMaxQuickExits : ℕ := 3

/-- What is sent to a process. -/
inductive Outgoing where
  | initializeRequest
  | initialized
  | request (ticket : ℕ)
  | cancelRequest (id : ℤ)
  | didOpen (uri : Uri) (version : ℤ) (text : List Char)
  | didChange (uri : Uri) (version : ℤ) (text : List Char)
  | didSave (uri : Uri) (text : Option (List Char))
  | didClose (uri : Uri)
  | shutdown
  | exit
  deriving DecidableEq, Repr

/-- A call of the client: the one of `send_initialize`, one of `lsp_server_call`, or the one of
`lsp_server_shutdown`, which has no callback. -/
inductive ServerCall where
  | initializeCall
  | user (call : Call)
  | shutdown
  deriving DecidableEq, Repr

/-- `LspQueuedMessage` -/
inductive Queued where
  | call (call : Call)
  | notify (message : Outgoing)
  deriving DecidableEq, Repr

/-- `queued_message_free`, which destroys the data of a call. -/
def Queued.destroyNotes : Queued → List Note
  | call c => c.destroyNotes
  | notify _ => []

/-- `LspDoc`; `doc` is the document of the editor. -/
structure LspDoc where
  doc : ℕ
  uri : Uri
  version : ℤ
  opened : Bool
  changeTimeout : Bool
  deriving DecidableEq, Repr

/-- What is left to do when the callbacks of a client that has been given up have run: the rest of
`process_exited`, with how the process ended and whether the next one can be started, or of
`drop_client`. -/
inductive Todo where
  | onExit (quick spawns : Bool)
  | dropped
  deriving DecidableEq, Repr

/-- `LspServer`, the `LspDoc`s of the manager that belong to it, the texts of the documents, all
calls that were made and what has happened to them, what was sent to each process (the last one
first), how many processes were started, and how many of them in a row without one that lived for
some time. -/
structure World where
  state : LspServerState
  client : Option (Client ServerCall)
  docs : List Uri
  queued : List Queued
  syncKind : ℤ
  wantsDidSaveText : Bool
  quickExits : ℕ
  shuttingDown : Bool
  initTimeout : Bool
  initTimeouts : ℕ
  exitTimeout : Bool
  ldocs : List LspDoc
  texts : ℕ → List Char
  todo : List Todo
  made : List Call
  log : List Note
  wires : List (List Outgoing)
  starts : ℕ
  row : ℕ
  released : Bool

namespace World

/-! ## The client -/

/-- `lsp_client_is_running`, for a client that may be missing. -/
def clientRuns (w : World) : Bool := w.client.any (·.isRunning)

/-- `lsp_client_notify` -/
def send (w : World) (message : Outgoing) : World :=
  if w.clientRuns then
    { w with
      wires := match w.wires with
        | [] => []
        | wire :: wires => (wire ++ [message]) :: wires }
  else w

/-- A callback is run, and its data destroyed. -/
def answerCall (w : World) (call : Call) : World :=
  { w with log := w.log ++ call.runNotes ++ call.destroyNotes }

/-- `lsp_client_call`; `refuse` is what the callback does when the client is not running. -/
def callClient (w : World) (call : ServerCall) (message : Outgoing) (refuse : World → World) :
    World :=
  match w.client with
  | none => w
  | some client =>
    if client.isRunning then { w with client := client.insert call }.send message else refuse w

/-! ## Messages of the server -/

/-- `lsp_server_is_ready` -/
def isReady (w : World) : Bool := w.state == .ready && w.clientRuns

/-- `notify` -/
def notify (w : World) (message : Outgoing) : World :=
  match w.state with
  | .failed => w
  | .starting => { w with queued := w.queued ++ [.notify message] }
  | .ready => w.send message

/-- `lsp_server_did_open` -/
def lspServerDidOpen (w : World) (uri : Uri) (version : ℤ) (text : List Char) : World :=
  if w.syncKind = lspSyncNone ∧ w.state = .ready then w
  else if uri ∈ w.docs then w
  else { w with docs := uri :: w.docs }.notify (.didOpen uri version text)

/-- `lsp_server_did_change` -/
def lspServerDidChange (w : World) (uri : Uri) (version : ℤ) (text : List Char) : World :=
  if uri ∉ w.docs then w
  else if w.syncKind = lspSyncNone then w
  else w.notify (.didChange uri version text)

/-- `lsp_server_did_save` -/
def lspServerDidSave (w : World) (uri : Uri) (text : List Char) : World :=
  if uri ∉ w.docs then w
  else w.notify (.didSave uri (if w.wantsDidSaveText then some text else none))

/-- `lsp_server_did_close` -/
def lspServerDidClose (w : World) (uri : Uri) : World :=
  if uri ∉ w.docs then w
  else { w with docs := w.docs.filter (· ≠ uri) }.notify (.didClose uri)

/-! ## Documents -/

def findDoc (w : World) (doc : ℕ) : Option LspDoc := w.ldocs.find? (·.doc = doc)

/-- The `LspDoc` of a document with a change. -/
def setDoc (w : World) (ldoc : LspDoc) : World :=
  { w with ldocs := w.ldocs.map fun d => if d.doc = ldoc.doc then ldoc else d }

/-- `lsp_doc_open` -/
def lspDocOpen (w : World) (ldoc : LspDoc) : World :=
  if ldoc.uri ∈ w.docs then w
  else
    (w.lspServerDidOpen ldoc.uri 1 (w.texts ldoc.doc)).setDoc
      { ldoc with version := 1, opened := true }

/-- `send_did_change` -/
def sendDidChange (w : World) (ldoc : LspDoc) : World :=
  if ldoc.opened then
    (w.lspServerDidChange ldoc.uri (ldoc.version + 1) (w.texts ldoc.doc)).setDoc
      { ldoc with version := ldoc.version + 1, changeTimeout := false }
  else w.setDoc { ldoc with changeTimeout := false }

/-- `lsp_doc_flush` -/
def lspDocFlush (w : World) (ldoc : LspDoc) : World :=
  if ldoc.changeTimeout then w.sendDidChange ldoc else w

/-- `doc_saved` -/
def docSaved (w : World) (ldoc : LspDoc) : World :=
  if ldoc.opened then
    (w.lspDocFlush ldoc).lspServerDidSave ldoc.uri (w.texts ldoc.doc)
  else w

/-- The text of a document is another one. -/
def setText (w : World) (doc : ℕ) (text : List Char) : World :=
  { w with texts := Function.update w.texts doc text }

/-- `buffer_changed` -/
def bufferChanged (w : World) (ldoc : LspDoc) : World :=
  if ldoc.opened then w.setDoc { ldoc with changeTimeout := true } else w

/-- `lsp_manager_add_doc` for a document of this server, with `lsp_doc_new`. -/
def addDoc (w : World) (doc : ℕ) (uri : Uri) : World :=
  match w.findDoc doc with
  | some _ => w
  | none =>
    let ldoc : LspDoc := ⟨doc, uri, 0, false, false⟩
    { w with ldocs := ldoc :: w.ldocs }.lspDocOpen ldoc

/-- `lsp_manager_remove_doc`, with `lsp_doc_free`. -/
def removeDoc (w : World) (doc : ℕ) : World :=
  match w.findDoc doc with
  | none => w
  | some ldoc =>
    if ldoc.opened then { w with ldocs := w.ldocs.filter (·.doc ≠ doc) }.lspServerDidClose ldoc.uri
    else { w with ldocs := w.ldocs.filter (·.doc ≠ doc) }

/-- An event of the `LspDoc` of a document. -/
def withDoc (w : World) (doc : ℕ) (f : World → LspDoc → World) : World :=
  match w.findDoc doc with
  | some ldoc => f w ldoc
  | none => w

/-! ## The state of the server -/

/-- `server_state_changed`, which the server calls when its state changes. -/
def serverStateChanged (w : World) : World :=
  if w.isReady then w.ldocs.foldl lspDocOpen w else w

/-- `set_state` -/
def setState (w : World) (state : LspServerState) : World :=
  if w.state = state then w else { w with state := state }.serverStateChanged

/-- `clear_queue` -/
def clearQueue (w : World) : World :=
  { w with queued := [], log := w.log ++ w.queued.flatMap Queued.destroyNotes }

/-- `set_failed` -/
def setFailed (w : World) : World := { w.clearQueue with docs := [] }.setState .failed

/-- One message of `flush_queue`. -/
def sendQueued (w : World) : Queued → World
  | .call call => w.callClient (.user call) (.request call.ticket) (·.answerCall call)
  | .notify message => w.send message

/-- `flush_queue` -/
def flushQueue (w : World) : World := w.queued.foldl sendQueued { w with queued := [] }

/-- `lsp_server_call` -/
def lspServerCall (w : World) (call : Call) : World :=
  match w.state with
  | .failed => { w with log := w.log ++ call.destroyNotes }
  | .starting => { w with queued := w.queued ++ [.call call] }
  | .ready => w.callClient (.user call) (.request call.ticket) (·.answerCall call)

/-! ## Starting and stopping -/

/-- The sync kind that `read_capabilities` finds, as an enumeration of four bytes, and whether the
server wants the text that is saved. -/
def readSync (capabilities : Json.Object) : ℤ × Bool :=
  let sync : ℤ × Bool :=
    match Json.getNode capabilities "textDocumentSync" with
    | some (.object options) =>
      (Json.getInt options "change" lspSyncFull,
        Json.getProvider options "save" && Json.lookupBool options ["save", "includeText"] false)
    | _ => (Json.getInt capabilities "textDocumentSync" lspSyncFull, false)
  let syncKind := sync.1 % 2 ^ 32
  (if syncKind = lspSyncIncremental then lspSyncFull else syncKind, sync.2)

/-- The removal of the timeout of `send_initialize`. -/
def stopInitTimeout (w : World) : World :=
  if w.initTimeout then { w with initTimeout := false, initTimeouts := w.initTimeouts - 1 } else w

/-- `initialize_reply` -/
def initializeReply (w : World) (result : Option Json) (error : Option Json.Object) : World :=
  let w := w.stopInitTimeout
  match error, result with
  | none, some (.object object) =>
    let sync := readSync ((Json.getObject object "capabilities").getD [])
    (({ w with syncKind := sync.1, wantsDidSaveText := sync.2 }.send .initialized).setState
      .ready).flushQueue
  | _, _ => w.setFailed

/-- A callback of the client is run with an error, and its data destroyed. -/
def refuseCall (w : World) : ServerCall → World
  | .initializeCall => w.initializeReply none (some [])
  | .user call => w.answerCall call
  | .shutdown => w

/-- `fail_pending_calls` -/
def failPendingCalls (w : World) : World :=
  match w.client with
  | none => w
  | some client =>
    client.pending.foldl (fun w entry => w.refuseCall entry.2)
      { w with client := some client.stealAll }

/-- `lsp_client_disconnect` -/
def disconnect (w : World) : World :=
  match w.client with
  | none => w
  | some client =>
    if client.disconnected then w
    else { w with client := some { client with disconnected := true } }.failPendingCalls

/-- `drop_client` of a client whose calls may have callbacks that call the server. -/
def startDrop (w : World) : World :=
  match w.client with
  | none => w
  | some _ => { w.disconnect with todo := .dropped :: w.disconnect.todo }

/-- `drop_client` -/
def dropClient (w : World) : World := { w.disconnect with client := none }

/-- `send_initialize` -/
def sendInitialize (w : World) : World :=
  { w with initTimeout := true, initTimeouts := w.initTimeouts + 1 }.callClient .initializeCall
    .initializeRequest
    (·.initializeReply none (some []))

/-- `start_process` -/
def startProcess (w : World) (spawns : Bool) : World :=
  let w := w.dropClient
  let w := { w with starts := w.starts + 1, row := w.row + 1 }
  if spawns then { w with client := some Client.new, wires := [] :: w.wires }.sendInitialize
  else w.setFailed

/-- The counting of exits in `client_exited`. -/
def countExit (w : World) (quick : Bool) : World :=
  { w with
    quickExits := if quick then w.quickExits + 1 else 0
    row := if quick then w.row else 0 }

/-- The end of `client_exited`. -/
def restart (w : World) (spawns : Bool) : World :=
  (({ w with docs := [] }.clearQueue).setState .starting).startProcess spawns

/-- `client_exited` -/
def clientExited (w : World) (quick spawns : Bool) : World :=
  if w.shuttingDown then w
  else if (w.countExit quick).quickExits ≥ lspMaxQuickExits then (w.countExit quick).setFailed
  else (w.countExit quick).restart spawns

/-- `process_exited`, up to the call of `on_exit`. -/
def processExited (w : World) (quick spawns : Bool) : World :=
  match w.client with
  | none => w
  | some client =>
    if client.running then
      let w := { w with client := some { client with running := false } }.failPendingCalls
      { w with todo := .onExit quick spawns :: w.todo }
    else w

/-- `initialize_timed_out` -/
def initializeTimedOut (w : World) : World :=
  if w.initTimeouts = 0 then w
  else { w with initTimeout := false, initTimeouts := w.initTimeouts - 1 }.setFailed.startDrop

/-- `exit_timed_out`; the reference it held is dropped by the event `release`. -/
def exitTimedOut (w : World) : World :=
  if w.exitTimeout then { w with exitTimeout := false }.startDrop else w

/-- `lsp_server_shutdown` -/
def shutdown (w : World) : World :=
  if w.shuttingDown then w
  else
    let w := { { w with shuttingDown := true }.stopInitTimeout.clearQueue with docs := [] }
    if w.clientRuns then
      let w := if w.state = .ready then w.callClient .shutdown .shutdown id else w
      { w.send .exit with exitTimeout := true }
    else w.dropClient

/-- `lsp_server_unref` of the last reference. -/
def release (w : World) : World := { w.dropClient.clearQueue with released := true }

/-- What is left to do when callbacks have run. -/
def goOn (w : World) : World :=
  match w.todo with
  | [] => w
  | .dropped :: todo => { w with todo := todo, client := none }
  | .onExit quick spawns :: todo =>
    let w := { w with todo := todo }
    if w.client.any (fun client => !client.disconnected) then w.clientExited quick spawns else w

/-- A reply in `dispatch_message`. -/
def reply (w : World) (id : ℤ) (result : Option Json) (error : Option Json.Object) : World :=
  match w.client with
  | none => w
  | some client =>
    if client.disconnected then w
    else
      match client.pending.lookup id with
      | none => w
      | some call =>
        let w := { w with client := some (client.remove id) }
        match call with
        | .initializeCall => w.initializeReply result error
        | .user call => w.answerCall call
        | .shutdown => w

/-- `lsp_server_cancel`, with `lsp_client_cancel`. -/
def cancel (w : World) (id : ℤ) : World :=
  match w.client with
  | none => w
  | some client =>
    if id = 0 then w
    else
      let w := match client.pending.lookup id with
        | some (.user call) =>
          { w with
            client := some (client.remove id)
            log := w.log ++ [Note.cancelled call.ticket] ++ call.destroyNotes }
        | _ => { w with client := some (client.remove id) }
      w.send (.cancelRequest id)

/-! ## Events -/

inductive Event where
  | call (hasCallback hasDestroy : Bool)
  | cancel (id : ℤ)
  | reply (id : ℤ) (result : Option Json) (error : Option Json.Object)
  | exited (quick spawns : Bool)
  | initTimeout
  | exitTimeout
  | shutdown
  | release
  | goOn
  | open_ (doc : ℕ) (uri : Uri)
  | close (doc : ℕ)
  | rename (doc : ℕ) (uri : Uri)
  | change (doc : ℕ) (text : List Char)
  | changeTimeout (doc : ℕ)
  | flush (doc : ℕ)
  | saved (doc : ℕ)

def step (w : World) (e : Event) : World :=
  if w.released then w
  else
    match e with
    | .call hasCallback hasDestroy =>
      let call : Call := ⟨w.made.length, hasCallback, hasDestroy⟩
      { w with made := w.made ++ [call] }.lspServerCall call
    | .cancel id => w.cancel id
    | .reply id result error => w.reply id result error
    | .exited quick spawns => w.processExited quick spawns
    | .initTimeout => w.initializeTimedOut
    | .exitTimeout => w.exitTimedOut
    | .shutdown => w.shutdown
    | .release => w.release
    | .goOn => w.goOn
    | .open_ doc uri => w.addDoc doc uri
    | .close doc => w.removeDoc doc
    | .rename doc uri => (w.removeDoc doc).addDoc doc uri
    | .change doc text => (w.setText doc text).withDoc doc bufferChanged
    -- The timeout fires when it is set, and does what a flush does then.
    | .changeTimeout doc => w.withDoc doc lspDocFlush
    | .flush doc => w.withDoc doc lspDocFlush
    | .saved doc => w.withDoc doc docSaved

/-- `lsp_server_new`, without documents. -/
def new (spawns : Bool) : World :=
  startProcess ⟨.starting, none, [], [], lspSyncFull, false, 0, false, false, 0, false, [],
    fun _ => [], [], [], [], [], 0, 0, false⟩ spawns

end World

end Medit
