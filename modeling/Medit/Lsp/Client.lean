import Mathlib.Data.Rat.Floor
import Medit.Library.Calls
import Medit.Lsp.Json

/-!
# The calls of a client

The part of `lsp-client.cpp` that keeps the calls which wait for a reply. The functions of a caller
are run in the middle of it, and may call it again; a running function is on a stack here, and
between its start and its end there may be any other event.

## Main definitions

* `Client` — the table of pending calls.
* `Incoming.of` — what `dispatch_message` takes a message for.
* `ClientRun`, `ClientRun.step` — a client with the functions that are running.
-/

namespace Medit

/-! ## The table -/

/-- What a client has to do with calls; a pending call comes with its id. -/
structure Client (α : Type*) where
  running : Bool
  disconnected : Bool
  pending : List (ℤ × α)
  nextId : ℤ

namespace Client

variable {α : Type*}

/-- `lsp_client_new` -/
def new : Client α := ⟨true, false, [], 1⟩

/-- `lsp_client_is_running` -/
def isRunning (client : Client α) : Bool := client.running && !client.disconnected

/-- The part of `lsp_client_call` that enters a call. -/
def insert (client : Client α) (call : α) : Client α :=
  { client with
    pending := client.pending ++ [(client.nextId, call)]
    nextId := client.nextId + 1 }

/-- The table without the call of an id. -/
def remove (client : Client α) (id : ℤ) : Client α :=
  { client with pending := client.pending.filter fun entry => entry.1 ≠ id }

/-- The table after `g_hash_table_steal_all`. -/
def stealAll (client : Client α) : Client α := { client with pending := [] }

end Client

/-! ## Messages -/

/-- `g_ascii_strtoll` with base ten. -/
def strtoll (s : List Char) : ℤ :=
  let s := s.dropWhile fun c => c == ' ' || ('\t' ≤ c && c ≤ '\r')
  let negative := s.head? == some '-'
  let s := if negative || s.head? == some '+' then s.tail else s
  let n : ℤ := Nat.ofDigitChars 10 (s.takeWhile Char.isDigit) 0
  if negative then max (-n) (-(2 ^ 63)) else min n (2 ^ 63 - 1)

/-- The id of a reply: `g_ascii_strtoll` of a string, and `json_node_get_int` of anything else. -/
def Json.toId : Json → ℤ
  | .string s => strtoll s
  | json => json.toInt

inductive Incoming where
  | request
  | reply (id : ℤ)
  | notification
  | malformed
  deriving DecidableEq, Repr

/-- What `dispatch_message` takes a message for, which is none if it cannot be parsed. -/
def Incoming.of : Option Json → Incoming
  | some (.object object) =>
    match Json.has object "id", Json.getNode object "id", Json.getString object "method" with
    | true, _, some _ => request
    | true, some id, none => reply id.toId
    | _, _, some _ => notification
    | _, _, none => malformed
  | _ => malformed

/-! ## Running functions -/

/-- `LspPendingCall`, of which only is known whether it has a callback and a destroy function; it is
told from other calls by a number. -/
abbrev PendingCall := Calls.Call

/-- A function that is running: one that has called the callback of a call and will free it, or the
loop of `fail_pending_calls` with the calls that it has taken out of the table. -/
inductive Frame where
  | answering (call : PendingCall)
  | failing (calls : List (ℤ × PendingCall))
  deriving DecidableEq, Repr

/-- A client with all calls that were made, each with the id that `lsp_client_call` returned, the
running functions, the innermost first, and what has happened. -/
structure ClientRun where
  client : Client PendingCall
  made : List (ℤ × PendingCall)
  stack : List Frame
  log : List Calls.Note

inductive ClientEvent where
  | call (hasCallback hasDestroy : Bool)
  | cancel (id : ℤ)
  | incoming (message : Option Json)
  | exited
  | disconnect
  /-- The innermost running function goes on. -/
  | goOn

namespace ClientRun

def new : ClientRun := ⟨Client.new, [], [], []⟩

/-- The callback of a call is run. -/
def answer (s : ClientRun) (call : PendingCall) : ClientRun :=
  { s with
    stack := .answering call :: s.stack
    log := s.log ++ call.runNotes }

/-- `pending_call_free` -/
def free (s : ClientRun) (call : PendingCall) : ClientRun :=
  { s with log := s.log ++ call.destroyNotes }

/-- That the calls with an id are cancelled. -/
def cancelNotes (s : ClientRun) (id : ℤ) : List Calls.Note :=
  (s.made.filter fun entry => entry.1 = id).map fun entry => .cancelled entry.2.ticket

section Step

variable (order : List (ℤ × PendingCall) → List (ℤ × PendingCall))

/-- `fail_pending_calls`, up to its loop; `order` is the order of the hash table. -/
def failPendingCalls (s : ClientRun) : ClientRun :=
  if s.client.pending = [] then s
  else
    { s with
      client := s.client.stealAll
      stack := .failing (order s.client.pending).reverse :: s.stack }

/-- `lsp_client_call` -/
def call (s : ClientRun) (hasCallback hasDestroy : Bool) : ClientRun :=
  let call : PendingCall := ⟨s.made.length, hasCallback, hasDestroy⟩
  if s.client.isRunning then
    { s with client := s.client.insert call, made := s.made ++ [(s.client.nextId, call)] }
  else { s with made := s.made ++ [(0, call)] }.answer call

/-- `lsp_client_cancel` -/
def cancel (s : ClientRun) (id : ℤ) : ClientRun :=
  if id = 0 then s
  else
    let s := { s with log := s.log ++ s.cancelNotes id }
    match s.client.pending.lookup id with
    | some call => { s with client := s.client.remove id }.free call
    | none => s

/-- `dispatch_message` in the loop of `process_in_buf`. -/
def dispatch (s : ClientRun) (message : Option Json) : ClientRun :=
  if s.client.disconnected then s
  else
    match Incoming.of message with
    | .reply id =>
      match s.client.pending.lookup id with
      | some call => { s with client := s.client.remove id }.answer call
      | none => s
    | _ => s

/-- `process_exited`, which is called once. -/
def exited (s : ClientRun) : ClientRun :=
  if s.client.running then
    { s with client := { s.client with running := false } }.failPendingCalls order
  else s

/-- `lsp_client_disconnect` -/
def disconnect (s : ClientRun) : ClientRun :=
  if s.client.disconnected then s
  else { s with client := { s.client with disconnected := true } }.failPendingCalls order

/-- The innermost running function goes on: it frees the call whose callback has returned, or takes
the next call of its loop. -/
def goOn (s : ClientRun) : ClientRun :=
  match s.stack with
  | [] => s
  | .answering call :: stack => { s with stack := stack }.free call
  | .failing [] :: stack => { s with stack := stack }
  | .failing (entry :: calls) :: stack =>
    { s with stack := .failing calls :: stack }.answer entry.2

def step (s : ClientRun) : ClientEvent → ClientRun
  | .call hasCallback hasDestroy => s.call hasCallback hasDestroy
  | .cancel id => s.cancel id
  | .incoming message => s.dispatch message
  | .exited => s.exited order
  | .disconnect => s.disconnect order
  | .goOn => s.goOn

end Step

end ClientRun

end Medit
