import Medit.Library.Machine
import Medit.Lsp.ServerCore

/-!
# The states of a language server

What the state of a server has to do with the calls of its client, with the exits that are left to
handle, and with the number of processes that have been started.

A server that has failed is meant to stay so. It does as long as it does not hear of the exit of its
process when it has failed already.

## Main definitions

* `World.Steady` — what is true of a server between two events.
* `World.HearsExit` — a server that has failed is told that its process has exited.

## Main results

* `World.Steady.step` — every event keeps it.
* `World.Reachable.failed_stays` — a failed server stays failed and starts no process.
-/

namespace Medit

open Calls

def Todo.isExit : Todo → Bool
  | onExit _ _ => true
  | dropped => false

@[simp] theorem filter_onExit {quick spawns : Bool} {todo : List Todo} :
    (Todo.onExit quick spawns :: todo).filter Todo.isExit =
      .onExit quick spawns :: todo.filter Todo.isExit := rfl

@[simp] theorem filter_dropped {todo : List Todo} :
    (Todo.dropped :: todo).filter Todo.isExit = todo.filter Todo.isExit := rfl

namespace World

/-- A client that does not run has no calls. A call of `initialize` waits only while the server is
starting, other calls only when it is ready. When an exit is left to handle, the client does not
run. -/
structure Steady (c : Core) : Prop where
  idle : ∀ client ∈ c.client, client.isRunning = false → client.pending = []
  first : ∀ client ∈ c.client, ∀ id, (id, ServerCall.initializeCall) ∈ client.pending →
    id = 1 ∧ c.state = .starting
  users : ∀ client ∈ c.client, ∀ id call, (id, ServerCall.user call) ∈ client.pending →
    c.state = .ready
  exits : (c.todo.filter Todo.isExit).length ≤ 1
  exited : ∀ client ∈ c.client, (∃ t ∈ c.todo, t.isExit) → client.running = false
  dropped : .dropped ∈ c.todo → ∀ client ∈ c.client, client.disconnected
  row_le : c.row ≤ c.quickExits + 1
  row_max : c.row ≤ lspMaxQuickExits
  quick : lspMaxQuickExits ≤ c.quickExits → c.state = .failed

/-- The difference between two states is that calls have been given up, and that the server may have
failed. -/
structure Fails (c d : Core) : Prop where
  client : d.client = c.client
  todo : d.todo = c.todo
  quickExits : d.quickExits = c.quickExits
  row : d.row = c.row
  starts : d.starts = c.starts
  calls : d.calls ⊆ c.calls
  state : d.state = c.state ∨ d.state = .failed

variable {w : World} {c d : Core} {client : Client ServerCall}

theorem Fails.refl : Fails c c := ⟨rfl, rfl, rfl, rfl, rfl, List.Subset.refl _, .inl rfl⟩

theorem Fails.trans {e : Core} (h : Fails c d) (h' : Fails d e) : Fails c e where
  client := h'.client.trans h.client
  todo := h'.todo.trans h.todo
  quickExits := h'.quickExits.trans h.quickExits
  row := h'.row.trans h.row
  starts := h'.starts.trans h.starts
  calls := List.Subset.trans h'.calls h.calls
  state := by grind [h.state, h'.state]

/-- A server without calls stays steady when it fails. -/
theorem Steady.fails (h : Steady c) (hf : Fails c d) (hp : ∀ client ∈ c.client, client.pending = []) :
    Steady d := by
  obtain ⟨hclient, htodo, hquick, hrow, hstarts, -, hstate⟩ := hf
  refine ⟨?_, ?_, ?_, ?_, ?_, ?_, ?_, ?_, ?_⟩
  · rw [hclient]; exact h.idle
  · rw [hclient]; intro client hc id hid; simp [hp client hc] at hid
  · rw [hclient]; intro client hc id call hid; simp [hp client hc] at hid
  · rw [htodo]; exact h.exits
  · rw [hclient, htodo]; exact h.exited
  · rw [hclient, htodo]; exact h.dropped
  · rw [hrow, hquick]; exact h.row_le
  · rw [hrow]; exact h.row_max
  · intro hq
    rcases hstate with hstate | hstate
    · exact hstate.trans (h.quick (hquick ▸ hq))
    · exact hstate

/-! ## Giving calls up -/

theorem Fails.setFailed : Fails w.core w.setFailed.core := by
  rw [core_setFailed]
  exact ⟨rfl, rfl, rfl, rfl, rfl, List.nil_subset _, .inr rfl⟩

@[simp] theorem core_stopInitTimeout : w.stopInitTimeout.core = w.core := by
  unfold stopInitTimeout
  split <;> rfl

theorem initializeReply_error {error : Json.Object} :
    w.initializeReply none (some error) = w.stopInitTimeout.setFailed := rfl

theorem Fails.refuseCall {call : ServerCall} : Fails w.core (w.refuseCall call).core := by
  cases call with
  | initializeCall =>
    rw [World.refuseCall, initializeReply_error, ← core_stopInitTimeout]
    exact .setFailed
  | user call => exact ⟨rfl, rfl, rfl, rfl, rfl, List.Subset.refl _, .inl rfl⟩
  | shutdown => exact .refl

theorem Fails.foldl (entries : List (ℤ × ServerCall)) (w : World) :
    Fails w.core (entries.foldl (fun w entry => w.refuseCall entry.2) w).core := by
  induction entries generalizing w with
  | nil => exact .refl
  | cons entry entries ih => exact Fails.trans .refuseCall (ih _)

/-- When the calls of a client that has stopped have been given up, the server is steady again. -/
theorem steady_failPendingCalls (hclient : w.client = some client)
    (h : Steady { w.core with client := some client.stealAll }) :
    Steady w.failPendingCalls.core := by
  unfold failPendingCalls
  simp only [hclient]
  refine Steady.fails (c := { w.core with client := some client.stealAll }) h ?_
    (by simp [Client.stealAll])
  exact Fails.foldl _ { w with client := some client.stealAll }

/-- The server with a client that has given up its calls. -/
theorem Steady.stopped (h : Steady c) (hclient : c.client = some client) {running disconnected : Bool}
    (hrunning : running → client.running) (hdisconnected : client.disconnected → disconnected) :
    Steady { c with client := some ⟨running, disconnected, [], client.nextId⟩ } where
  idle := by simp
  first := by simp
  users := by simp
  exits := h.exits
  exited := by
    rintro _ ⟨⟩ ht
    have := h.exited client hclient ht
    grind
  dropped hd := by
    rintro _ ⟨⟩
    exact hdisconnected (h.dropped hd client hclient)
  row_le := h.row_le
  row_max := h.row_max
  quick := h.quick

/-- A server that has failed, or not, is steady when its client has been disconnected. -/
theorem steady_disconnect_of (h : Steady c) (hf : Fails c w.core) : Steady w.disconnect.core := by
  unfold disconnect
  split
  · next hclient =>
    refine h.fails hf fun client hc => ?_
    simp [← hf.client, core, hclient] at hc
  · next client hclient =>
    have hc : c.client = some client := hf.client.symm.trans hclient
    split
    · next hd =>
      refine h.fails hf fun client' hc' => ?_
      obtain rfl := Option.some.inj (hc.symm.trans hc')
      exact h.idle client hc (by simp [Client.isRunning, hd])
    · refine steady_failPendingCalls rfl ?_
      have hstop : Steady { c with client := some ⟨client.running, true, [], client.nextId⟩ } :=
        h.stopped hc id fun _ => rfl
      refine hstop.fails ⟨rfl, hf.todo, hf.quickExits, hf.row, hf.starts, hf.calls, hf.state⟩ ?_
      rintro _ ⟨⟩
      rfl

theorem steady_disconnect (h : Steady w.core) : Steady w.disconnect.core :=
  steady_disconnect_of h .refl

/-! ## Calls -/

theorem Steady.notes (h : Steady c) {calls made : List Call} {log : List Note}
    {shuttingDown released : Bool} :
    Steady { c with
      calls := calls
      made := made
      log := log
      shuttingDown := shuttingDown
      released := released } :=
  ⟨h.idle, h.first, h.users, h.exits, h.exited, h.dropped, h.row_le, h.row_max, h.quick⟩

/-- The server with fewer calls that wait. -/
theorem Steady.remove (h : Steady c) (hclient : c.client = some client) {id : ℤ} :
    Steady { c with client := some (client.remove id) } where
  idle := by
    rintro _ ⟨⟩ hrun
    simp [Client.remove, h.idle client hclient hrun]
  first := by
    rintro _ ⟨⟩ id hid
    exact h.first client hclient id (List.mem_of_mem_filter hid)
  users := by
    rintro _ ⟨⟩ id call hid
    exact h.users client hclient id call (List.mem_of_mem_filter hid)
  exits := h.exits
  exited := by
    rintro _ ⟨⟩ ht
    exact h.exited client hclient ht
  dropped hd := by
    rintro _ ⟨⟩
    exact h.dropped hd client hclient
  row_le := h.row_le
  row_max := h.row_max
  quick := h.quick

/-- The server with one more call that waits. -/
theorem Steady.insert (h : Steady c) (hclient : c.client = some client) (hrun : client.isRunning)
    {call : ServerCall} (hcall : call ≠ .initializeCall) (huser : ∀ u, call = .user u → c.state = .ready) :
    Steady { c with client := some (client.insert call) } where
  idle := by
    rintro _ ⟨⟩ hidle
    exact absurd hrun (by simpa [Client.insert, Client.isRunning] using hidle)
  first := by
    rintro _ ⟨⟩ id hid
    exact h.first client hclient id (by simpa [Client.insert, hcall.symm] using hid)
  users := by
    rintro _ ⟨⟩ id u hid
    rcases List.mem_append.1 hid with hid | hid
    · exact h.users client hclient id u hid
    · exact huser u (by simpa using (Prod.mk.inj (List.mem_singleton.1 hid)).2.symm)
  exits := h.exits
  exited := by
    rintro _ ⟨⟩ ht
    exact h.exited client hclient ht
  dropped hd := by
    rintro _ ⟨⟩
    exact h.dropped hd client hclient
  row_le := h.row_le
  row_max := h.row_max
  quick := h.quick

theorem steady_answerCall (h : Steady w.core) {call : Call} : Steady (w.answerCall call).core :=
  ⟨h.idle, h.first, h.users, h.exits, h.exited, h.dropped, h.row_le, h.row_max, h.quick⟩

theorem steady_callClient (h : Steady w.core) {call : ServerCall} {message : Outgoing}
    {refuse : World → World} (hcall : call ≠ .initializeCall)
    (huser : ∀ u, call = .user u → w.state = .ready) (hrefuse : Steady (refuse w).core) :
    Steady (w.callClient call message refuse).core := by
  unfold callClient
  split
  · exact h
  · next client hclient =>
    split
    · next hrun =>
      rw [core_send]
      exact h.insert hclient hrun hcall huser
    · exact hrefuse

theorem steady_lspServerCall (h : Steady w.core) {call : Call} :
    Steady (w.lspServerCall call).core := by
  unfold lspServerCall
  split
  · exact h.notes
  · exact h.notes
  · next hstate =>
    exact steady_callClient h (by simp) (fun _ _ => hstate) (steady_answerCall h)

theorem state_callClient {call : ServerCall} {message : Outgoing} {refuse : World → World}
    (hrefuse : (refuse w).state = w.state) : (w.callClient call message refuse).state = w.state := by
  unfold callClient
  split
  · rfl
  · split
    · exact congrArg Core.state core_send
    · exact hrefuse

theorem steady_sendQueued (h : Steady w.core) (hstate : w.state = .ready) (message : Queued) :
    Steady (w.sendQueued message).core ∧ (w.sendQueued message).state = .ready := by
  cases message with
  | call call =>
    exact ⟨steady_callClient h (by simp) (fun _ _ => hstate) (steady_answerCall h),
      (state_callClient rfl).trans hstate⟩
  | notify message =>
    have hcore : (w.sendQueued (.notify message)).core = w.core := core_send
    exact ⟨hcore ▸ h, (congrArg Core.state hcore).trans hstate⟩

theorem steady_foldl_sendQueued {queued : List Queued} (h : Steady w.core)
    (hstate : w.state = .ready) :
    Steady (queued.foldl sendQueued w).core ∧ (queued.foldl sendQueued w).state = .ready := by
  induction queued generalizing w with
  | nil => exact ⟨h, hstate⟩
  | cons message queued ih =>
    obtain ⟨hstep, hready⟩ := steady_sendQueued h hstate message
    exact ih hstep hready

theorem steady_flushQueue (h : Steady w.core) (hstate : w.state = .ready) :
    Steady w.flushQueue.core ∧ w.flushQueue.state = .ready :=
  steady_foldl_sendQueued (w := { w with queued := [] }) h.notes hstate

/-! ## Starting and stopping -/

/-- The reply to the call of `initialize`, which does not wait any more. -/
theorem steady_initializeReply (h : Steady w.core) (hstate : w.state = .starting)
    (hinit : ∀ client ∈ w.client, ∀ id, (id, ServerCall.initializeCall) ∉ client.pending)
    {result : Option Json} {error : Option Json.Object} :
    Steady (w.initializeReply result error).core := by
  have hquick : w.quickExits < lspMaxQuickExits := by
    by_contra hq
    exact absurd (h.quick (not_lt.1 hq)) (by simp [core, hstate])
  have huser : ∀ client ∈ w.client, ∀ id call, (id, ServerCall.user call) ∉ client.pending :=
    fun client hc id call hid => absurd (h.users client hc id call hid) (by simp [core, hstate])
  have hset : ∀ state, Steady { w.core with state := state } := fun state =>
    ⟨h.idle, fun client hc id hid => absurd hid (hinit client hc id),
      fun client hc id call hid => absurd hid (huser client hc id call), h.exits, h.exited,
      h.dropped, h.row_le, h.row_max, fun hq => absurd hq (not_le.2 hquick)⟩
  unfold initializeReply
  simp only
  split
  · refine (steady_flushQueue ?_ ?_).1
    · rw [core_setState, core_send]
      exact (core_stopInitTimeout (w := w)) ▸ hset .ready
    · exact congrArg Core.state core_setState
  · rw [core_setFailed, core_stopInitTimeout]
    exact (hset .failed).notes

theorem Steady.noClient (h : Steady c) {todo : List Todo}
    (htodo : (todo.filter Todo.isExit).length ≤ 1) : Steady { c with client := none, todo := todo } where
  idle := by simp
  first := by simp
  users := by simp
  exits := htodo
  exited := by simp
  dropped := by simp
  row_le := h.row_le
  row_max := h.row_max
  quick := h.quick

theorem steady_dropClient (h : Steady w.core) : Steady w.dropClient.core :=
  (steady_disconnect h).noClient (steady_disconnect h).exits

theorem disconnect_of_none (hclient : w.client = none) : w.disconnect = w := by
  simp [disconnect, hclient]

/-- A disconnected client has no calls. -/
theorem disconnected_of_disconnect (hclient : w.client = some client) :
    ∃ client', w.disconnect.client = some client' ∧ client'.disconnected := by
  unfold disconnect
  simp only [hclient]
  split
  · next hd => exact ⟨client, hclient, hd⟩
  · have hf := Fails.foldl client.pending
      { w with client := some { client with disconnected := true, pending := [] } }
    exact ⟨_, hf.client, rfl⟩

theorem steady_startDrop_of (h : Steady c) (hf : Fails c w.core) : Steady w.startDrop.core := by
  unfold startDrop
  split
  · next hclient =>
    refine h.fails hf fun client hc => ?_
    simp [← hf.client, core, hclient] at hc
  · next client hclient =>
    have hd := steady_disconnect_of h hf
    obtain ⟨client', hclient', hdisconnected⟩ := disconnected_of_disconnect hclient
    exact
      { hd with
        exited := by
          rintro client hc ⟨t, ht, hexit⟩
          refine hd.exited client hc ⟨t, (List.mem_cons.1 ht).resolve_left ?_, hexit⟩
          rintro rfl
          simp [Todo.isExit] at hexit
        dropped := fun _ client hc => by
          obtain rfl : client' = client := Option.some.inj (hclient'.symm.trans hc)
          exact hdisconnected }

theorem core_dropClient (hidle : ∀ client ∈ w.client, client.pending = []) :
    w.dropClient.core = { w.core with client := none } := by
  have hd : w.disconnect.core = { w.core with client := w.disconnect.client } := by
    unfold disconnect
    split
    · rfl
    · next client hclient =>
      split
      · rfl
      · simp only [failPendingCalls, hidle client hclient, List.foldl_nil]
        rfl
  exact congrArg (fun c : Core => { c with client := none }) hd

/-- A server whose client has nothing left to do, after the start of a process. -/
def Core.started (c : Core) (spawns : Bool) : Core :=
  if spawns then
    { c with
      client := some (Client.new.insert .initializeCall)
      starts := c.starts + 1
      row := c.row + 1 }
  else
    { c with
      state := .failed
      client := none
      calls := []
      log := c.log ++ c.calls.flatMap Call.destroyNotes
      starts := c.starts + 1
      row := c.row + 1 }

theorem core_startProcess (hidle : ∀ client ∈ w.client, client.pending = []) {spawns : Bool} :
    (w.startProcess spawns).core = w.core.started spawns := by
  have hdrop := core_dropClient hidle
  unfold startProcess
  cases spawns with
  | true =>
    simp only [if_true, sendInitialize, callClient, Client.new, Client.isRunning, Core.started]
    simp only [Bool.not_false, Bool.and_self, if_true, core_send]
    exact congrArg (fun c : Core =>
      { c with
        client := some (Client.new.insert .initializeCall)
        starts := c.starts + 1
        row := c.row + 1 }) hdrop
  | false =>
    simp only [Bool.false_eq_true, if_false, core_setFailed, Core.started]
    exact congrArg (fun c : Core =>
      { c with
        state := .failed
        calls := []
        log := c.log ++ c.calls.flatMap Call.destroyNotes
        starts := c.starts + 1
        row := c.row + 1 }) hdrop

theorem Steady.started (h : Steady c) (hstate : c.state = .starting)
    (htodo : c.todo.filter Todo.isExit = []) (hdropped : .dropped ∉ c.todo)
    (hrow : c.row ≤ c.quickExits) (hquick : c.quickExits < lspMaxQuickExits) {spawns : Bool} :
    Steady (c.started spawns) := by
  unfold Core.started
  split
  · refine ⟨?_, ?_, ?_, h.exits, ?_, fun hd => absurd hd hdropped, ?_, ?_, h.quick⟩
    · rintro _ ⟨⟩ hrun
      simp [Client.isRunning, Client.insert, Client.new] at hrun
    · rintro _ ⟨⟩ id hid
      simp only [Client.insert, Client.new, List.nil_append, List.mem_singleton] at hid
      exact ⟨(Prod.mk.inj hid).1, hstate⟩
    · rintro _ ⟨⟩ id call hid
      simp [Client.insert, Client.new] at hid
    · rintro _ ⟨⟩ ⟨t, ht, hexit⟩
      have : t ∈ c.todo.filter Todo.isExit := List.mem_filter.2 ⟨ht, hexit⟩
      simp [htodo] at this
    · exact Nat.succ_le_succ hrow
    · exact lt_of_le_of_lt hrow hquick
  · refine ⟨by simp, by simp, by simp, h.exits, by simp, by simp, ?_, ?_, fun _ => rfl⟩
    · exact Nat.succ_le_succ hrow
    · exact lt_of_le_of_lt hrow hquick

theorem no_exits (h : Steady c) (hclient : c.client = some client) (hrun : client.running) :
    c.todo.filter Todo.isExit = [] := by
  refine List.filter_eq_nil_iff.2 fun t ht hexit => ?_
  simp [h.exited client hclient ⟨t, ht, hexit⟩] at hrun

theorem steady_processExited (h : Steady w.core) {quick spawns : Bool} :
    Steady (w.processExited quick spawns).core := by
  unfold processExited
  split
  · exact h
  · next client hclient =>
    split
    · next hrun =>
      have hstop : Steady
          ({ w with client := some { client with running := false } } : World).failPendingCalls.core := by
        refine steady_failPendingCalls rfl ?_
        exact h.stopped hclient (by simp) id
      have hf := Fails.foldl client.pending
        { w with client := some { client with running := false, pending := [] } }
      refine { hstop with exits := ?_, exited := ?_, dropped := ?_ }
      · have htodo : (World.failPendingCalls { w with client := some { client with running := false } }).todo
            = w.todo := hf.todo
        have hnone : w.todo.filter Todo.isExit = [] := no_exits h hclient hrun
        simp [core, htodo, hnone]
      · intro client' hc _
        obtain rfl := Option.some.inj (hf.client.symm.trans hc)
        rfl
      · intro hd client' hc
        refine hstop.dropped ?_ client' hc
        exact (List.mem_cons.1 hd).resolve_left (by simp)
    · exact h

/-- The server after an exit has been counted. -/
def Core.countExit (c : Core) (quick : Bool) : Core :=
  { c with
    quickExits := if quick then c.quickExits + 1 else 0
    row := if quick then c.row else 0 }

/-- The server without calls in its queue, in some state. -/
def Core.cleared (c : Core) (state : LspServerState) : Core :=
  { c with state := state, calls := [], log := c.log ++ c.calls.flatMap Call.destroyNotes }

theorem core_restart (hidle : ∀ client ∈ w.client, client.pending = []) {spawns : Bool} :
    (w.restart spawns).core = (w.core.cleared .starting).started spawns := by
  have hset : ((({ w with docs := [] } : World).clearQueue).setState .starting).core =
      w.core.cleared .starting := by
    rw [core_setState, core_clearQueue]
    rfl
  unfold restart
  rw [core_startProcess, hset]
  have hclient := congrArg Core.client hset
  exact fun client hc => hidle client (hclient.symm.trans hc)

theorem core_clientExited (hidle : ∀ client ∈ w.client, client.pending = [])
    (hshut : w.shuttingDown = false) {quick spawns : Bool} :
    (w.clientExited quick spawns).core =
      if (w.core.countExit quick).quickExits ≥ lspMaxQuickExits then
        (w.core.countExit quick).cleared .failed
      else ((w.core.countExit quick).cleared .starting).started spawns := by
  unfold clientExited
  simp only [hshut, Bool.false_eq_true, if_false]
  split
  · next h => rw [if_pos (show (w.core.countExit quick).quickExits ≥ _ from h)]; exact core_setFailed
  · next h =>
    rw [if_neg (show ¬ (w.core.countExit quick).quickExits ≥ _ from h)]
    exact core_restart (w := w.countExit quick) hidle

theorem Steady.countExit_row (h : Steady c) {quick : Bool} :
    (c.countExit quick).row ≤ (c.countExit quick).quickExits ∧
      (c.countExit quick).row ≤ lspMaxQuickExits := by
  cases quick with
  | true => exact ⟨h.row_le, h.row_max⟩
  | false => exact ⟨le_rfl, Nat.zero_le _⟩

/-- A server whose client has no calls, in another state. -/
theorem Steady.cleared (h : Steady c) (hidle : ∀ client ∈ c.client, client.pending = [])
    {quick : Bool} {state : LspServerState}
    (hquick : lspMaxQuickExits ≤ (c.countExit quick).quickExits → state = .failed) :
    Steady ((c.countExit quick).cleared state) where
  idle := h.idle
  first client hc id hid := by simp [hidle client hc] at hid
  users client hc id call hid := by simp [hidle client hc] at hid
  exits := h.exits
  exited := h.exited
  dropped := h.dropped
  row_le := h.countExit_row.1.trans (Nat.le_succ _)
  row_max := h.countExit_row.2
  quick := hquick

theorem steady_clientExited (h : Steady w.core) (hidle : ∀ client ∈ w.client, client.pending = [])
    (htodo : w.todo.filter Todo.isExit = []) (hdropped : .dropped ∉ w.todo) {quick spawns : Bool} :
    Steady (w.clientExited quick spawns).core := by
  cases hshut : w.shuttingDown with
  | true => simpa [clientExited, hshut] using h
  | false =>
    rw [core_clientExited hidle hshut]
    split
    · exact h.cleared hidle fun _ => rfl
    · next hquick =>
      exact (h.cleared hidle fun hq => absurd hq hquick).started rfl htodo hdropped h.countExit_row.1
        (not_le.1 hquick)

theorem steady_goOn (h : Steady w.core) : Steady w.goOn.core := by
  unfold goOn
  split
  · exact h
  · next todo htodo =>
    refine h.noClient ?_
    have := h.exits
    simpa [core, htodo] using this
  · next quick spawns todo htodo =>
    have hexits : todo.filter Todo.isExit = [] := by
      have := h.exits
      simp only [core, htodo, filter_onExit, List.length_cons] at this
      exact List.length_eq_zero_iff.1 (by omega)
    have hrest : Steady ({ w with todo := todo } : World).core :=
      { h with
        exits := by change (todo.filter _).length ≤ 1; simp [hexits]
        exited := by
          rintro client hc ⟨t, ht, hexit⟩
          have : t ∈ todo.filter Todo.isExit := List.mem_filter.2 ⟨ht, hexit⟩
          simp [hexits] at this
        dropped := fun hd => h.dropped (by simpa [core, htodo] using hd) }
    simp only
    split
    · next hconnected =>
      obtain ⟨client, hclient, hd⟩ := (Option.any_eq_true _ _).1 hconnected
      have hrun : client.running = false :=
        h.exited client hclient ⟨.onExit quick spawns, by simp [core, htodo], rfl⟩
      refine steady_clientExited hrest ?_ hexits fun hdrop => ?_
      · intro client' hc
        obtain rfl := Option.some.inj (hclient.symm.trans hc)
        exact h.idle client hclient (by simp [Client.isRunning, hrun])
      · have := hrest.dropped hdrop client hclient
        simp [this] at hd
    · exact hrest

/-! ## Events -/

theorem steady_initializeTimedOut (h : Steady w.core) : Steady w.initializeTimedOut.core := by
  unfold initializeTimedOut
  split
  · exact h
  · exact steady_startDrop_of h (.setFailed (w := { w with
      initTimeout := false
      initTimeouts := w.initTimeouts - 1 }))

theorem steady_exitTimedOut (h : Steady w.core) : Steady w.exitTimedOut.core := by
  unfold exitTimedOut
  split
  · exact steady_startDrop_of (w := { w with exitTimeout := false }) h .refl
  · exact h

theorem steady_shutdown (h : Steady w.core) : Steady w.shutdown.core := by
  unfold shutdown
  split
  · exact h
  · have hcore : (({ w with shuttingDown := true } : World).stopInitTimeout.clearQueue).core =
        { w.core with
          shuttingDown := true
          calls := []
          log := w.log ++ w.core.calls.flatMap Call.destroyNotes } := by
      rw [core_clearQueue, core_stopInitTimeout]
      rfl
    have hclear : Steady
        ({ ({ w with shuttingDown := true } : World).stopInitTimeout.clearQueue with docs := [] } :
          World).core := by
      change Steady (({ w with shuttingDown := true } : World).stopInitTimeout.clearQueue).core
      rw [hcore]
      exact h.notes
    generalize ({ ({ w with shuttingDown := true } : World).stopInitTimeout.clearQueue with
      docs := [] } : World) = v at hclear ⊢
    simp only
    split
    · have hsend : ∀ u : World, Steady u.core →
          Steady ({ u.send .exit with exitTimeout := true } : World).core := fun u hu => by
        change Steady (u.send .exit).core
        rw [core_send]
        exact hu
      apply hsend
      split
      · exact steady_callClient hclear (by simp) (by simp) hclear
      · exact hclear
    · exact steady_dropClient hclear

theorem steady_release (h : Steady w.core) : Steady w.release.core := by
  unfold release
  change Steady { w.dropClient.clearQueue.core with released := true }
  rw [core_clearQueue]
  exact (steady_dropClient h).notes

theorem mem_of_lookup {id : ℤ} {call : ServerCall} {pending : List (ℤ × ServerCall)}
    (h : pending.lookup id = some call) : (id, call) ∈ pending := by
  induction pending with
  | nil => simp at h
  | cons entry pending ih =>
    rw [List.lookup_cons] at h
    split at h
    · next heq =>
      obtain ⟨i, c⟩ := entry
      have hi : id = i := by simpa using heq
      have hc : c = call := by simpa using h
      simp [hi, hc]
    · exact List.mem_cons_of_mem _ (ih h)

theorem steady_reply (h : Steady w.core) {id : ℤ} {result : Option Json}
    {error : Option Json.Object} : Steady (w.reply id result error).core := by
  unfold reply
  split
  · exact h
  · next client hclient =>
    split
    · exact h
    · split
      · exact h
      · next call hcall =>
        have hrem : Steady ({ w with client := some (client.remove id) } : World).core :=
          h.remove hclient
        cases call with
        | initializeCall =>
          obtain ⟨hid, hstate⟩ := h.first client hclient id (mem_of_lookup hcall)
          refine steady_initializeReply hrem hstate ?_
          rintro _ ⟨⟩ id' hid'
          obtain ⟨hmem, hne⟩ := List.mem_filter.1 hid'
          have := (h.first client hclient id' hmem).1
          simp [hid, this] at hne
        | user call => exact steady_answerCall hrem
        | shutdown => exact hrem

theorem steady_cancel (h : Steady w.core) {id : ℤ} : Steady (w.cancel id).core := by
  unfold cancel
  split
  · exact h
  · next client hclient =>
    split
    · exact h
    · rw [core_send]
      split
      · exact (h.remove hclient).notes
      · exact h.remove hclient

theorem steady_step (h : Steady w.core) (e : Event) : Steady (w.step e).core := by
  unfold step
  split
  · exact h
  · cases e with
    | call hasCallback hasDestroy =>
      exact steady_lspServerCall (w := { w with made := w.made ++ [_] }) h.notes
    | cancel id => exact steady_cancel h
    | reply id result error => exact steady_reply h
    | exited quick spawns => exact steady_processExited h
    | initTimeout => exact steady_initializeTimedOut h
    | exitTimeout => exact steady_exitTimedOut h
    | shutdown => exact steady_shutdown h
    | release => exact steady_release h
    | goOn => exact steady_goOn h
    | open_ doc uri => simpa using h
    | close doc => simpa using h
    | rename doc uri => simpa using h
    | change doc text =>
      rw [core_withDoc fun _ => core_bufferChanged]
      exact h
    | changeTimeout doc => simpa [core_withDoc] using h
    | flush doc => simpa [core_withDoc] using h
    | saved doc => simpa [core_withDoc] using h

theorem steady_new (spawns : Bool) : Steady (new spawns).core := by
  unfold new
  rw [core_startProcess (by simp)]
  refine Steady.started ⟨?_, ?_, ?_, ?_, ?_, ?_, ?_, ?_, ?_⟩ rfl rfl ?_ le_rfl (by decide)
  all_goals simp [core, lspMaxQuickExits]

/-! ## Failed servers -/

/-- A server that has failed already is told that its process has exited. -/
def HearsExit (w : World) : Prop :=
  w.state = .failed ∧ w.shuttingDown = false ∧
    (∃ quick spawns todo, w.todo = .onExit quick spawns :: todo) ∧
    w.client.any (fun client => !client.disconnected)

/-- An event that does not make a failed server hear of an exit. -/
def Unheard (w : World) (e : Event) : Prop := e = .goOn → ¬ w.HearsExit

/-- A server that has failed stays so, and no process is started. -/
def Quiet (c d : Core) : Prop := d.starts = c.starts ∧ (c.state = .failed → d.state = .failed)

theorem Quiet.refl : Quiet c c := ⟨rfl, id⟩

theorem Quiet.trans {e : Core} (h : Quiet c d) (h' : Quiet d e) : Quiet c e :=
  ⟨h'.1.trans h.1, h'.2 ∘ h.2⟩

theorem Fails.quiet (h : Fails c d) : Quiet c d :=
  ⟨h.starts, fun hc => h.state.elim (·.trans hc) id⟩

theorem quiet_failPendingCalls : Quiet w.core w.failPendingCalls.core := by
  unfold failPendingCalls
  split
  · exact .refl
  · next client _ => exact (Fails.foldl _ { w with client := some client.stealAll }).quiet

theorem quiet_disconnect : Quiet w.core w.disconnect.core := by
  unfold disconnect
  split
  · exact .refl
  · next client _ =>
    split
    · exact .refl
    · exact quiet_failPendingCalls (w := { w with client := some { client with disconnected := true } })

theorem quiet_startDrop : Quiet w.core w.startDrop.core := by
  unfold startDrop
  split
  · exact .refl
  · exact quiet_disconnect

theorem quiet_callClient {call : ServerCall} {message : Outgoing} {refuse : World → World}
    (hrefuse : Quiet w.core (refuse w).core) :
    Quiet w.core (w.callClient call message refuse).core := by
  unfold callClient
  split
  · exact .refl
  · split
    · rw [core_send]
      exact .refl
    · exact hrefuse

theorem quiet_lspServerCall {call : Call} : Quiet w.core (w.lspServerCall call).core := by
  unfold lspServerCall
  split
  · exact .refl
  · exact .refl
  · exact quiet_callClient .refl

theorem quiet_shutdown : Quiet w.core w.shutdown.core := by
  unfold shutdown
  split
  · exact .refl
  · have hclear : Quiet w.core
        ({ ({ w with shuttingDown := true } : World).stopInitTimeout.clearQueue with docs := [] } :
          World).core := by
      change Quiet w.core (({ w with shuttingDown := true } : World).stopInitTimeout.clearQueue).core
      rw [core_clearQueue, core_stopInitTimeout]
      exact .refl
    refine hclear.trans ?_
    simp only
    split
    · rename_i v _
      have hsend : ∀ u : World, Quiet u.core ({ u.send .exit with exitTimeout := true } : World).core :=
        fun u => by
          change Quiet u.core (u.send .exit).core
          rw [core_send]
          exact .refl
      refine Quiet.trans ?_ (hsend _)
      split
      · exact quiet_callClient .refl
      · exact .refl
    · exact quiet_disconnect

theorem quiet_release : Quiet w.core w.release.core := by
  unfold release
  change Quiet w.core { w.dropClient.clearQueue.core with released := true }
  rw [core_clearQueue]
  exact quiet_disconnect

/-- Only a reply to the call of `initialize` makes a server ready, and there is none for a server
that has failed. -/
theorem quiet_reply (h : Steady w.core) (hstate : w.state = .failed) {id : ℤ} {result : Option Json}
    {error : Option Json.Object} : Quiet w.core (w.reply id result error).core := by
  unfold reply
  split
  · exact .refl
  · next client hclient =>
    split
    · exact .refl
    · split
      · exact .refl
      · next call hcall =>
        cases call with
        | initializeCall =>
          have := (h.first client hclient id (mem_of_lookup hcall)).2
          simp [core, hstate] at this
        | user call => exact .refl
        | shutdown => exact .refl

theorem quiet_goOn (hstate : w.state = .failed) (hheard : ¬ w.HearsExit) :
    Quiet w.core w.goOn.core := by
  unfold goOn
  split
  · exact .refl
  · exact .refl
  · next quick spawns todo htodo =>
    simp only
    split
    · next hconnected =>
      cases hshut : w.shuttingDown with
      | true =>
        simp only [clientExited, if_true]
        exact .refl
      | false => exact absurd ⟨hstate, hshut, ⟨quick, spawns, todo, htodo⟩, hconnected⟩ hheard
    · exact .refl

theorem quiet_step (h : Steady w.core) (hstate : w.state = .failed) (e : Event)
    (hheard : w.Unheard e) : Quiet w.core (w.step e).core := by
  unfold step
  split
  · exact .refl
  · cases e with
    | call hasCallback hasDestroy => exact quiet_lspServerCall (w := { w with made := w.made ++ [_] })
    | cancel id =>
      simp only [cancel]
      split
      · exact .refl
      · split
        · exact .refl
        · rw [core_send]
          split <;> exact .refl
    | reply id result error => exact quiet_reply h hstate
    | exited quick spawns =>
      simp only [processExited]
      split
      · exact .refl
      · next client _ =>
        split
        · exact quiet_failPendingCalls (w := { w with client := some { client with running := false } })
        · exact .refl
    | initTimeout =>
      simp only [initializeTimedOut]
      split
      · exact .refl
      · exact (Fails.setFailed (w := { w with
          initTimeout := false
          initTimeouts := w.initTimeouts - 1 })).quiet.trans quiet_startDrop
    | exitTimeout =>
      simp only [exitTimedOut]
      split
      · exact quiet_startDrop (w := { w with exitTimeout := false })
      · exact .refl
    | shutdown => exact quiet_shutdown
    | release => exact quiet_release
    | goOn => exact quiet_goOn hstate (hheard rfl)
    | open_ doc uri => simp [Quiet]
    | close doc => simp [Quiet]
    | rename doc uri => simp [Quiet]
    | change doc text =>
      rw [core_withDoc fun _ => core_bufferChanged]
      exact .refl
    | changeTimeout doc => simp [core_withDoc, Quiet]
    | flush doc => simp [core_withDoc, Quiet]
    | saved doc => simp [core_withDoc, Quiet]

/-- In every run, a server that has failed stays so and starts no process as long as it does not hear
of an exit of its process. There are at most three starts in a row whose processes exit quickly, and
the third of the exits makes it fail. -/
theorem failed_stays {spawns : Bool}
    (h : Machine.Reachable step (fun _ _ => True) (new spawns) w) :
    (w.state = .failed → ∀ w', Machine.Reachable step Unheard w w' →
      w'.state = .failed ∧ w'.starts = w.starts) ∧
    w.row ≤ lspMaxQuickExits ∧ (lspMaxQuickExits ≤ w.quickExits → w.state = .failed) := by
  have hsteady : Steady w.core :=
    h.invariant (P := fun w => Steady w.core) (steady_new spawns) fun s e _ hs => steady_step hs e
  refine ⟨fun hfailed w' hw' => ?_, hsteady.row_max, hsteady.quick⟩
  have hinv : Steady w'.core ∧ w'.state = .failed ∧ w'.starts = w.starts := by
    refine hw'.invariant (P := fun s => Steady s.core ∧ s.state = .failed ∧ s.starts = w.starts)
      ⟨hsteady, hfailed, rfl⟩ fun s e he ⟨hs, hstate, hstarts⟩ => ?_
    obtain ⟨hquiet, hstay⟩ := quiet_step hs hstate e he
    exact ⟨steady_step hs e, hstay hstate, hquiet.trans hstarts⟩
  exact hinv.2

/-- A server whose process cannot be run is never started again. -/
theorem failed_stays_unspawned :
    (new false).state = .failed ∧ (new false).starts = 1 ∧
      ∀ w', Machine.Reachable step Unheard (new false) w' → w'.state = .failed ∧ w'.starts = 1 :=
  ⟨rfl, rfl, (failed_stays .start).1 rfl⟩

/-- A server answers the call of `initialize` with an error, so that it has failed, and its process
exits then: the server is started again. -/
theorem failed_restarts :
    let w := (new true).step (.reply 1 none (some []))
    let w' := (w.step (.exited false true)).step .goOn
    w.state = .failed ∧ w.starts = 1 ∧ w'.state = .starting ∧ w'.starts = 2 :=
  ⟨rfl, rfl, rfl, rfl⟩

end World

end Medit
