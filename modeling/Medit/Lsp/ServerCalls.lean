import Medit.Lsp.ServerStates

/-!
# The answers of a language server

Every call of a server is answered once, by its process or with an error, or is cancelled, unless it
is made when the server has failed or has no client any more, or is thrown away with the queue.

## Main definitions

* `World.Core.waiting` — the calls that are queued or have been sent.
* `World.Answerable` — an event that loses no call with a callback.

## Main results

* `World.server_calls_answered` — the answers of every run.
* `World.call_lost_queued`, `World.call_lost_failed` — calls that are never answered.
-/

namespace Medit

open Calls

/-! ## Calls with ids -/

/-- The ids tell the calls of a client apart. -/
structure Client.Keyed {α : Type*} (client : Client α) : Prop where
  nodup : (client.pending.map Prod.fst).Nodup
  fresh : ∀ entry ∈ client.pending, entry.1 < client.nextId

section Keyed

variable {α : Type*} {client : Client α} {a : α} {id : ℤ}

theorem Client.Keyed.insert (h : client.Keyed) : (client.insert a).Keyed where
  nodup := by
    rw [Client.insert, List.map_append, List.nodup_append]
    refine ⟨h.nodup, by simp, ?_⟩
    intro i hi j hj
    obtain ⟨entry, hentry, rfl⟩ := List.mem_map.1 hi
    have := h.fresh entry hentry
    simp only [List.map_cons, List.map_nil, List.mem_singleton] at hj
    omega
  fresh entry hentry := by
    rcases List.mem_append.1 hentry with hentry | hentry
    · have := h.fresh entry hentry
      simp only [Client.insert]
      omega
    · simp [List.mem_singleton.1 hentry, Client.insert]

theorem Client.Keyed.remove (h : client.Keyed) : (client.remove id).Keyed where
  nodup := h.nodup.sublist (List.filter_sublist.map _)
  fresh entry hentry := h.fresh entry (List.mem_of_mem_filter hentry)

/-- Taking the call of an id out of a table. -/
theorem Client.Keyed.perm_remove (h : client.Keyed) (hlookup : client.pending.lookup id = some a) :
    client.pending.Perm ((id, a) :: (client.remove id).pending) := by
  obtain ⟨pre, post, heq, hpre⟩ := List.lookup_eq_some_iff.1 hlookup
  have hnodup := h.nodup
  rw [heq, List.map_append, List.map_cons] at hnodup
  have hpost : ∀ entry ∈ post, entry.1 ≠ id := by
    rintro entry hentry rfl
    have hfst : entry.1 ∈ post.map Prod.fst := List.mem_map_of_mem hentry
    exact (List.nodup_cons.1 (List.nodup_append.1 hnodup).2.1).1 hfst
  have hrest : (client.remove id).pending = pre ++ post := by
    change client.pending.filter (fun entry => entry.1 ≠ id) = _
    rw [heq, List.filter_append, List.filter_cons_of_neg (by simp)]
    have hpre' : pre.filter (fun entry => entry.1 ≠ id) = pre :=
      List.filter_eq_self.2 fun entry hentry => by
        have := hpre entry hentry
        grind
    have hpost' : post.filter (fun entry => entry.1 ≠ id) = post :=
      List.filter_eq_self.2 fun entry hentry => by simpa using hpost entry hentry
    rw [hpre', hpost']
  rw [hrest, heq]
  exact List.perm_middle

end Keyed

namespace World

/-! ## Calls that wait -/

/-- The calls of `lsp_server_call` in the table of a client. -/
def userCalls (pending : List (ℤ × ServerCall)) : List Call :=
  pending.filterMap fun entry =>
    match entry.2 with
    | .user call => some call
    | _ => none

def clientCalls : Option (Client ServerCall) → List Call
  | none => []
  | some client => userCalls client.pending

/-- The calls that are queued and the ones that have been sent and not been answered. -/
def Core.waiting (c : Core) : List Call := c.calls ++ clientCalls c.client

/-- The calls that wait, with some that have just been taken from the client, all calls and what has
happened agree. -/
structure Answered (taken : List Call) (c : Core) : Prop where
  valid : Valid (taken ++ c.waiting) [] c.made c.log
  keyed : ∀ client ∈ c.client, client.Keyed
  queued : c.calls ≠ [] → c.state = .starting

/-- Calls without callbacks. -/
def Mute (calls : List Call) : Prop := ∀ c ∈ calls, c.hasCallback = false

variable {w : World} {c d : Core} {client : Client ServerCall} {call : Call}

@[simp] theorem userCalls_user {id : ℤ} {pending : List (ℤ × ServerCall)} :
    userCalls ((id, .user call) :: pending) = call :: userCalls pending := rfl

@[simp] theorem userCalls_initializeCall {id : ℤ} {pending : List (ℤ × ServerCall)} :
    userCalls ((id, .initializeCall) :: pending) = userCalls pending := rfl

@[simp] theorem userCalls_shutdown {id : ℤ} {pending : List (ℤ × ServerCall)} :
    userCalls ((id, .shutdown) :: pending) = userCalls pending := rfl

theorem userCalls_insert {call : ServerCall} :
    userCalls (client.insert call).pending = userCalls client.pending ++ userCalls [(0, call)] := by
  unfold userCalls Client.insert
  rw [List.filterMap_append]
  rfl

/-- Taking the call of an id out of the table of a client. -/
theorem perm_userCalls_remove (h : client.Keyed) {id : ℤ} {call : ServerCall}
    (hlookup : client.pending.lookup id = some call) :
    (userCalls client.pending).Perm (userCalls ((id, call) :: (client.remove id).pending)) :=
  (h.perm_remove hlookup).filterMap _

/-! ## Answers -/

/-- A queue without callbacks is thrown away. -/
theorem Answered.cleared {taken : List Call} (h : Answered taken c) (hmute : Mute c.calls)
    {state : LspServerState} : Answered taken (c.cleared state) where
  valid := by
    have hperm : (taken ++ c.waiting).Perm (c.calls ++ (taken ++ clientCalls c.client)) :=
      List.perm_append_comm_assoc _ _ _
    exact (h.valid.perm hperm (List.Perm.refl _)).discard hmute
  keyed := h.keyed
  queued := by simp [Core.cleared]

theorem core_setFailed_cleared : w.setFailed.core = w.core.cleared .failed := core_setFailed

theorem answered_setFailed {taken : List Call} (h : Answered taken w.core)
    (hmute : Mute w.core.calls) : Answered taken w.setFailed.core :=
  core_setFailed_cleared ▸ h.cleared hmute

/-- Calls that have been taken from the client are answered. -/
theorem answered_foldl {entries : List (ℤ × ServerCall)}
    (h : Answered (userCalls entries) w.core)
    (hmute : (∃ id, (id, ServerCall.initializeCall) ∈ entries) → Mute w.core.calls) :
    Answered [] (entries.foldl (fun w entry => w.refuseCall entry.2) w).core := by
  induction entries generalizing w with
  | nil => exact h
  | cons entry entries ih =>
    obtain ⟨id, call⟩ := entry
    cases call with
    | initializeCall =>
      have hcore : (w.refuseCall .initializeCall).core = w.core.cleared .failed := by
        rw [refuseCall, initializeReply_error, core_setFailed_cleared, core_stopInitTimeout]
      have hclear : Answered (userCalls entries) (w.refuseCall .initializeCall).core :=
        hcore ▸ h.cleared (hmute ⟨id, by simp⟩)
      refine ih hclear fun _ => ?_
      rw [hcore]
      exact fun c hc => by simp [Core.cleared] at hc
    | user call =>
      have hfinish : Answered (userCalls entries) (w.answerCall call).core :=
        ⟨h.valid.finish, h.keyed, h.queued⟩
      refine ih hfinish ?_
      rintro ⟨id, hid⟩
      exact hmute ⟨id, by simp [hid]⟩
    | shutdown =>
      refine ih h ?_
      rintro ⟨id, hid⟩
      exact hmute ⟨id, by simp [hid]⟩

/-- The client still waits for the reply to the call of `initialize`. -/
def Initializing (client : Option (Client ServerCall)) : Prop :=
  ∃ c ∈ client, ∃ id, (id, ServerCall.initializeCall) ∈ c.pending

theorem answered_failPendingCalls (h : Answered [] w.core)
    (hmute : Initializing w.client → Mute w.core.calls) : Answered [] w.failPendingCalls.core := by
  unfold failPendingCalls
  split
  · exact h
  · next client hclient =>
    refine answered_foldl ⟨?_, ?_, h.queued⟩ fun hinit => hmute ⟨client, hclient, hinit⟩
    · have hperm : w.core.waiting.Perm (userCalls client.pending ++ w.core.calls) := by
        simp only [Core.waiting, core, hclient, clientCalls]
        exact List.perm_append_comm
      change Valid (userCalls client.pending ++ (w.core.calls ++ [])) [] w.made w.log
      rw [List.append_nil]
      exact h.valid.perm hperm (List.Perm.refl _)
    · rintro _ ⟨⟩
      exact ⟨by simp [Client.stealAll], by simp [Client.stealAll]⟩

/-- Only the table of a client matters. -/
theorem Answered.flags (h : Answered [] c) (hclient : c.client = some client)
    {client' : Client ServerCall} (hpending : client'.pending = client.pending)
    (hnext : client'.nextId = client.nextId) : Answered [] { c with client := some client' } where
  valid := by
    have hvalid := h.valid
    simp only [Core.waiting, hclient, clientCalls] at hvalid ⊢
    rw [hpending]
    exact hvalid
  keyed := by
    rintro _ ⟨⟩
    have hkeyed := h.keyed client hclient
    exact ⟨hpending ▸ hkeyed.nodup, by rw [hpending, hnext]; exact hkeyed.fresh⟩
  queued := h.queued

theorem answered_disconnect (h : Answered [] w.core)
    (hmute : Initializing w.client → Mute w.core.calls) : Answered [] w.disconnect.core := by
  unfold disconnect
  split
  · exact h
  · next client hclient =>
    split
    · exact h
    · refine answered_failPendingCalls (h.flags hclient rfl rfl) ?_
      rintro ⟨_, ⟨⟩, hinit⟩
      exact hmute ⟨client, hclient, hinit⟩

theorem answered_startDrop (h : Answered [] w.core)
    (hmute : Initializing w.client → Mute w.core.calls) : Answered [] w.startDrop.core := by
  unfold startDrop
  split
  · exact h
  · have hd := answered_disconnect h hmute
    exact ⟨hd.valid, hd.keyed, hd.queued⟩

/-- A client without calls is dropped. -/
theorem Answered.noClient (h : Answered [] c) (hidle : ∀ client ∈ c.client, client.pending = [])
    {todo : List Todo} : Answered [] { c with client := none, todo := todo } where
  valid := by
    have hnone : clientCalls c.client = [] := by
      cases hclient : c.client with
      | none => rfl
      | some client => simp [clientCalls, hidle client hclient, userCalls]
    have hvalid := h.valid
    rw [Core.waiting, hnone] at hvalid
    exact hvalid
  keyed := by simp
  queued := h.queued

/-- The client has no calls after it has been disconnected. -/
theorem idle_disconnect (hsteady : Steady w.core) :
    ∀ client ∈ w.disconnect.client, client.pending = [] := by
  intro client hc
  refine (steady_disconnect hsteady).idle client hc ?_
  cases hclient : w.client with
  | none =>
    rw [disconnect_of_none hclient, hclient] at hc
    cases hc
  | some client' =>
    obtain ⟨client'', hsome, hd⟩ := disconnected_of_disconnect hclient
    obtain rfl := Option.some.inj (hsome.symm.trans hc)
    simp [Client.isRunning, hd]

theorem answered_dropClient (h : Answered [] w.core) (hsteady : Steady w.core)
    (hmute : Initializing w.client → Mute w.core.calls) : Answered [] w.dropClient.core :=
  (answered_disconnect h hmute).noClient (idle_disconnect hsteady)

/-! ## New calls -/

theorem answered_answerCall {taken : List Call} (h : Answered (call :: taken) w.core) :
    Answered taken (w.answerCall call).core :=
  ⟨h.valid.finish, h.keyed, h.queued⟩

/-- A call is sent, or answered with an error, if there is a client. -/
theorem answered_callClient {taken : List Call} (h : Answered (call :: taken) w.core)
    (hclient : w.client ≠ none) {message : Outgoing} :
    Answered taken (w.callClient (.user call) message (·.answerCall call)).core := by
  unfold callClient
  split
  · next hnone => exact absurd hnone hclient
  · next client hclient =>
    split
    · rw [core_send]
      refine ⟨?_, ?_, h.queued⟩
      · have hperm : (call :: taken ++ w.core.waiting).Perm
            (taken ++ (w.core.calls ++ (userCalls client.pending ++ [call]))) := by
          simp only [Core.waiting, core, hclient, clientCalls, ← List.append_assoc]
          exact (List.perm_append_singleton call _).symm
        change Valid
          (taken ++ (w.core.calls ++ userCalls (client.insert (.user call)).pending)) [] w.made w.log
        rw [userCalls_insert]
        exact h.valid.perm hperm (List.Perm.refl _)
      · rintro _ ⟨⟩
        exact (h.keyed client hclient).insert
    · exact answered_answerCall h

theorem client_callClient (hclient : w.client ≠ none) {call : ServerCall} {message : Outgoing}
    {refuse : World → World} (hrefuse : (refuse w).client = w.client) :
    (w.callClient call message refuse).client ≠ none := by
  unfold callClient
  split
  · exact hclient
  · split
    · rw [show (send _ _).client = _ from congrArg Core.client core_send]
      exact Option.some_ne_none _
    · rwa [hrefuse]

/-- The calls of a queue that is flushed are sent, or answered with an error. -/
theorem answered_foldl_sendQueued {queued : List Queued} (h : Answered (queuedCalls queued) w.core)
    (hclient : w.client ≠ none) : Answered [] (queued.foldl sendQueued w).core := by
  induction queued generalizing w with
  | nil => exact h
  | cons message queued ih =>
    cases message with
    | call call => exact ih (answered_callClient h hclient) (client_callClient hclient rfl)
    | notify message =>
      have hcore : (w.sendQueued (.notify message)).core = w.core := core_send
      refine ih (hcore ▸ h) ?_
      rwa [show (w.sendQueued (.notify message)).client = w.client from congrArg Core.client hcore]

/-- A reply to the call of `initialize` makes the server ready. -/
def Succeeds (result : Option Json) (error : Option Json.Object) : Prop :=
  error = none ∧ ∃ object, result = some (.object object)

theorem answered_initializeReply (h : Answered [] w.core) (hclient : w.client ≠ none)
    {result : Option Json} {error : Option Json.Object}
    (hmute : ¬ Succeeds result error → Mute w.core.calls) :
    Answered [] (w.initializeReply result error).core := by
  unfold initializeReply
  simp only
  split
  · next object =>
    set v := ({ w.stopInitTimeout with
      syncKind := (readSync ((Json.getObject object "capabilities").getD [])).1
      wantsDidSaveText := (readSync ((Json.getObject object "capabilities").getD [])).2 } :
        World).send .initialized
    have hcore : (v.setState .ready).core = { w.core with state := .ready } := by
      rw [core_setState, core_send]
      exact congrArg (fun c : Core => { c with state := .ready }) core_stopInitTimeout
    refine answered_foldl_sendQueued (w := { v.setState .ready with queued := [] }) ?_ ?_
    · change Answered (v.setState .ready).core.calls { (v.setState .ready).core with calls := [] }
      rw [hcore]
      exact ⟨h.valid, h.keyed, by simp⟩
    · exact (congrArg Core.client hcore).trans_ne hclient
  · next hnot =>
    rw [core_setFailed_cleared, core_stopInitTimeout]
    refine h.cleared (hmute ?_)
    rintro ⟨rfl, object, rfl⟩
    exact hnot object rfl rfl

theorem answered_lspServerCall (h : Answered [call] w.core)
    (hcallback : call.hasCallback → w.state ≠ .failed) (hready : w.state = .ready → w.client ≠ none) :
    Answered [] (w.lspServerCall call).core := by
  unfold lspServerCall
  split
  · next hstate =>
    have hmute : call.runNotes = [] := by
      unfold Call.runNotes
      exact if_neg fun hcb => hcallback hcb hstate
    have hfinish := h.valid.finish
    rw [hmute, List.append_nil] at hfinish
    exact ⟨hfinish, h.keyed, h.queued⟩
  · next hstate =>
    have hcalls : queuedCalls (w.queued ++ [.call call]) = w.core.calls ++ [call] := by
      simp [core]
    refine ⟨?_, h.keyed, fun _ => hstate⟩
    have hperm : ([call] ++ w.core.waiting).Perm
        (queuedCalls (w.queued ++ [.call call]) ++ clientCalls w.client) := by
      rw [hcalls, List.append_assoc, Core.waiting]
      exact List.perm_append_comm_assoc _ _ _
    exact h.valid.perm hperm (List.Perm.refl _)
  · next hstate => exact answered_callClient h (hready hstate)

/-! ## Events -/

/-- The event throws the queue away. -/
def DropsQueue (w : World) : Event → Prop
  | .reply id result error =>
    (∃ client ∈ w.client, client.disconnected = false ∧
      client.pending.lookup id = some .initializeCall) ∧ ¬ Succeeds result error
  | .exited _ _ => Initializing w.client
  | .initTimeout => w.initTimeouts ≠ 0
  | .exitTimeout => w.exitTimeout ∧ Initializing w.client
  | .shutdown => w.shuttingDown = false
  | .release => True
  | .goOn => w.shuttingDown = false ∧ (∃ quick spawns todo, w.todo = .onExit quick spawns :: todo) ∧
    w.client.any (fun client => !client.disconnected)
  | _ => False

/-- The event loses no call with a callback: no such call is queued when the queue is thrown away,
or is made when the server has failed, and no call is made when it is ready without a client. -/
def Answerable (w : World) (e : Event) : Prop :=
  (w.DropsQueue e → Mute w.core.calls) ∧
    ∀ hasCallback hasDestroy, e = .call hasCallback hasDestroy →
      (hasCallback → w.state ≠ .failed) ∧ (w.state = .ready → w.client ≠ none)

theorem Answered.remove (h : Answered [] c) (hclient : c.client = some client) {id : ℤ}
    {call : ServerCall} (hlookup : client.pending.lookup id = some call) :
    Answered (userCalls [(id, call)]) { c with client := some (client.remove id) } where
  valid := by
    have hkeyed := h.keyed client hclient
    have hperm : ([] ++ c.waiting).Perm
        (userCalls [(id, call)] ++ (c.calls ++ userCalls (client.remove id).pending)) := by
      have hsplit : userCalls ((id, call) :: (client.remove id).pending) =
          userCalls [(id, call)] ++ userCalls (client.remove id).pending :=
        List.filterMap_append (l := [(id, call)])
      simp only [Core.waiting, hclient, clientCalls, List.nil_append]
      refine ((perm_userCalls_remove hkeyed hlookup).append_left _).trans ?_
      rw [hsplit]
      exact List.perm_append_comm_assoc _ _ _
    exact h.valid.perm hperm (List.Perm.refl _)
  keyed := by
    rintro _ ⟨⟩
    exact (h.keyed client hclient).remove
  queued := h.queued

theorem answered_reply (h : Answered [] w.core) {id : ℤ} {result : Option Json}
    {error : Option Json.Object} (hmute : w.DropsQueue (.reply id result error) → Mute w.core.calls) :
    Answered [] (w.reply id result error).core := by
  unfold reply
  split
  · exact h
  · next client hclient =>
    split
    · exact h
    · next hd =>
      split
      · exact h
      · next call hcall =>
        have hrem := h.remove (c := w.core) hclient hcall
        cases call with
        | initializeCall =>
          refine answered_initializeReply (w := { w with client := some (client.remove id) }) hrem
            (by simp) fun hfail => hmute ⟨?_, hfail⟩
          exact ⟨client, hclient, by simpa using hd, hcall⟩
        | user call => exact answered_answerCall hrem
        | shutdown => exact hrem

theorem answered_cancel (h : Answered [] w.core) {id : ℤ} : Answered [] (w.cancel id).core := by
  unfold cancel
  split
  · exact h
  · next client hclient =>
    split
    · exact h
    · rw [core_send]
      split
      · next call hcall =>
        have hrem := h.remove (c := w.core) hclient hcall
        exact ⟨hrem.valid.cancel, hrem.keyed, hrem.queued⟩
      · next hnot =>
        cases hcall : client.pending.lookup id with
        | none =>
          have hid : ∀ entry ∈ client.pending, entry.1 ≠ id := fun entry hentry => by
            have := List.lookup_eq_none_iff.1 hcall entry hentry
            grind
          have hall : (client.remove id).pending = client.pending :=
            List.filter_eq_self.2 fun entry hentry => by simpa using hid entry hentry
          exact h.flags hclient hall rfl
        | some call =>
          have hrem := h.remove (c := w.core) hclient hcall
          cases call with
          | user call => exact absurd hcall (hnot call)
          | initializeCall => exact hrem
          | shutdown => exact hrem

theorem Answered.started (h : Answered [] c) (hidle : ∀ client ∈ c.client, client.pending = [])
    (hcalls : c.calls = []) {spawns : Bool} : Answered [] (c.started spawns) := by
  have hnone : Answered [] { c with client := none } := h.noClient hidle
  unfold Core.started
  split
  · refine ⟨hnone.valid, ?_, fun hne => absurd hcalls hne⟩
    rintro _ ⟨⟩
    exact Client.Keyed.insert ⟨by simp [Client.new], by simp [Client.new]⟩
  · have hcleared : Answered [] (Core.cleared { c with client := none } .failed) :=
      hnone.cleared (by simp [Mute, hcalls])
    exact ⟨hcleared.valid, hcleared.keyed, hcleared.queued⟩

theorem answered_clientExited (h : Answered [] w.core)
    (hidle : ∀ client ∈ w.client, client.pending = []) {quick spawns : Bool}
    (hmute : w.shuttingDown = false → Mute w.core.calls) :
    Answered [] (w.clientExited quick spawns).core := by
  cases hshut : w.shuttingDown with
  | true => simpa [clientExited, hshut] using h
  | false =>
    have hcount : Answered [] (w.core.countExit quick) := ⟨h.valid, h.keyed, h.queued⟩
    rw [core_clientExited hidle hshut]
    split
    · exact hcount.cleared (hmute hshut)
    · exact (hcount.cleared (hmute hshut)).started hidle rfl

theorem answered_goOn (h : Answered [] w.core) (hsteady : Steady w.core)
    (hmute : w.DropsQueue .goOn → Mute w.core.calls) : Answered [] w.goOn.core := by
  unfold goOn
  split
  · exact h
  · next todo htodo =>
    refine h.noClient fun client hclient => hsteady.idle client hclient ?_
    have := hsteady.dropped (by simp [core, htodo]) client hclient
    simp [Client.isRunning, this]
  · next quick spawns todo htodo =>
    have hrest : Answered [] ({ w with todo := todo } : World).core := ⟨h.valid, h.keyed, h.queued⟩
    simp only
    split
    · next hconnected =>
      refine answered_clientExited hrest ?_ fun hshut =>
        hmute ⟨hshut, ⟨quick, spawns, todo, htodo⟩, hconnected⟩
      intro client hclient
      refine hsteady.idle client hclient ?_
      have hrun := hsteady.exited client hclient ⟨.onExit quick spawns, by simp [core, htodo], rfl⟩
      simp [Client.isRunning, hrun]
    · exact hrest

theorem answered_callShutdown (h : Answered [] w.core) :
    Answered [] (w.callClient .shutdown .shutdown id).core := by
  unfold callClient
  split
  · exact h
  · next client hclient =>
    split
    · rw [core_send]
      refine ⟨?_, ?_, h.queued⟩
      · have hcalls : userCalls (client.insert .shutdown).pending = userCalls client.pending := by
          rw [userCalls_insert]
          exact List.append_nil _
        have hvalid := h.valid
        rw [Core.waiting, show w.core.client = _ from hclient] at hvalid
        change Valid (w.core.calls ++ userCalls (client.insert .shutdown).pending) [] w.made w.log
        rw [hcalls]
        exact hvalid
      · rintro _ ⟨⟩
        exact (h.keyed client hclient).insert
    · exact h

theorem answered_shutdown (h : Answered [] w.core) (hsteady : Steady w.core)
    (hmute : w.DropsQueue .shutdown → Mute w.core.calls) : Answered [] w.shutdown.core := by
  unfold shutdown
  split
  · exact h
  · next hshut =>
    have hcore : ({ ({ w with shuttingDown := true } : World).stopInitTimeout.clearQueue with
        docs := [] } : World).core = { w.core.cleared w.state with shuttingDown := true } := by
      change (({ w with shuttingDown := true } : World).stopInitTimeout.clearQueue).core = _
      rw [core_clearQueue, core_stopInitTimeout]
      rfl
    have hcleared : Answered [] (w.core.cleared w.state) :=
      h.cleared (hmute (show w.shuttingDown = false by simpa using hshut))
    have hclear : Answered []
        ({ ({ w with shuttingDown := true } : World).stopInitTimeout.clearQueue with docs := [] } :
          World).core := hcore ▸ ⟨hcleared.valid, hcleared.keyed, hcleared.queued⟩
    have hsteady' : Steady
        ({ ({ w with shuttingDown := true } : World).stopInitTimeout.clearQueue with docs := [] } :
          World).core := hcore ▸ hsteady.notes
    have hcalls := congrArg Core.calls hcore
    generalize ({ ({ w with shuttingDown := true } : World).stopInitTimeout.clearQueue with
      docs := [] } : World) = v at hclear hsteady' hcalls ⊢
    simp only
    split
    · have hsend : ∀ u : World, Answered [] u.core →
          Answered [] ({ u.send .exit with exitTimeout := true } : World).core := fun u hu => by
        change Answered [] (u.send .exit).core
        rw [core_send]
        exact hu
      apply hsend
      split
      · exact answered_callShutdown hclear
      · exact hclear
    · refine answered_dropClient hclear hsteady' fun _ => ?_
      rw [hcalls]
      simp [Mute, Core.cleared]

/-- Nothing is queued by calls that are given up. -/
theorem calls_disconnect : w.disconnect.core.calls ⊆ w.core.calls := by
  unfold disconnect
  split
  · exact List.Subset.refl _
  · next client _ =>
    split
    · exact List.Subset.refl _
    · exact (Fails.foldl client.pending
        { w with client := some { client with disconnected := true, pending := [] } }).calls

theorem answered_release (h : Answered [] w.core) (hsteady : Steady w.core)
    (hmute : Mute w.core.calls) :
    Answered [] w.release.core ∧ w.release.core.waiting = [] := by
  have hdrop := answered_dropClient h hsteady fun _ => hmute
  have hcore : w.release.core = { w.dropClient.core.cleared w.dropClient.state with released := true } := by
    unfold release
    change { w.dropClient.clearQueue.core with released := true } = _
    rw [core_clearQueue]
    rfl
  have hcleared : Answered [] (w.dropClient.core.cleared w.dropClient.state) :=
    hdrop.cleared fun c hc => hmute c (calls_disconnect hc)
  rw [hcore]
  exact ⟨⟨hcleared.valid, hcleared.keyed, hcleared.queued⟩, rfl⟩

theorem answered_step (h : Answered [] w.core) (hsteady : Steady w.core) (e : Event)
    (hallowed : w.Answerable e) : Answered [] (w.step e).core := by
  unfold step
  split
  · exact h
  · cases e with
    | call hasCallback hasDestroy =>
      obtain ⟨hcallback, hready⟩ := hallowed.2 hasCallback hasDestroy rfl
      refine answered_lspServerCall (w := { w with made := w.made ++ [_] }) ⟨?_, h.keyed, h.queued⟩
        hcallback hready
      exact h.valid.enter (c := ⟨w.made.length, hasCallback, hasDestroy⟩) rfl
    | cancel id => exact answered_cancel h
    | reply id result error => exact answered_reply h hallowed.1
    | exited quick spawns =>
      simp only [processExited]
      split
      · exact h
      · next client hclient =>
        split
        · have hstop : Answered [] { w.core with client := some { client with running := false } } :=
            h.flags hclient rfl rfl
          have hfail := answered_failPendingCalls
            (w := { w with client := some { client with running := false } }) hstop ?_
          · exact ⟨hfail.valid, hfail.keyed, hfail.queued⟩
          · rintro ⟨_, ⟨⟩, hinit⟩
            exact hallowed.1 ⟨client, hclient, hinit⟩
        · exact h
    | initTimeout =>
      simp only [initializeTimedOut]
      split
      · exact h
      · next hne =>
        refine answered_startDrop (answered_setFailed h (hallowed.1 hne)) fun _ => ?_
        rw [core_setFailed]
        exact fun c hc => by simp at hc
    | exitTimeout =>
      simp only [exitTimedOut]
      split
      · next hexit =>
        exact answered_startDrop (w := { w with exitTimeout := false }) h fun hinit =>
          hallowed.1 ⟨hexit, hinit⟩
      · exact h
    | shutdown => exact answered_shutdown h hsteady hallowed.1
    | release => exact (answered_release h hsteady (hallowed.1 trivial)).1
    | goOn => exact answered_goOn h hsteady hallowed.1
    | open_ doc uri => simpa using h
    | close doc => simpa using h
    | rename doc uri => simpa using h
    | change doc text =>
      rw [core_withDoc fun _ => core_bufferChanged]
      exact h
    | changeTimeout doc => simpa [core_withDoc] using h
    | flush doc => simpa [core_withDoc] using h
    | saved doc => simpa [core_withDoc] using h

/-! ## Runs -/

theorem answered_new (spawns : Bool) : Answered [] (new spawns).core := by
  unfold new
  rw [core_startProcess (by simp)]
  refine Answered.started ?_ (by simp [core]) rfl
  exact ⟨Valid.new, by simp [core], by simp [core]⟩

theorem answered_reachable {spawns : Bool} (h : Machine.Reachable step Answerable (new spawns) w) :
    Steady w.core ∧ Answered [] w.core :=
  h.invariant (P := fun w => Steady w.core ∧ Answered [] w.core)
    ⟨steady_new spawns, answered_new spawns⟩
    fun _ e he ⟨hsteady, h⟩ => ⟨steady_step hsteady e, answered_step h hsteady e he⟩

/-- The calls that wait are queued by a server that is starting, or have been sent to a process that
runs. -/
theorem waiting_calls (hsteady : Steady w.core) (h : Answered [] w.core) (hcall : call ∈ w.core.waiting) :
    call ∈ queuedCalls w.queued ∧ w.state = .starting ∨
      call ∈ clientCalls w.client ∧ w.state = .ready ∧ w.clientRuns := by
  rcases List.mem_append.1 hcall with hcall | hcall
  · exact .inl ⟨hcall, h.queued (List.ne_nil_of_mem hcall)⟩
  · refine .inr ⟨hcall, ?_⟩
    cases hclient : w.client with
    | none =>
      rw [show w.core.client = none from hclient] at hcall
      simp [clientCalls] at hcall
    | some client =>
      rw [show w.core.client = some client from hclient] at hcall
      obtain ⟨⟨id, entry⟩, hentry, heq⟩ := List.mem_filterMap.1 hcall
      have huser : entry = .user call := by
        cases entry <;> simp_all
      subst huser
      refine ⟨hsteady.users client hclient id call hentry, ?_⟩
      unfold clientRuns
      rw [hclient]
      by_contra hidle
      have hnil := hsteady.idle client hclient (by simpa using hidle)
      rw [hnil] at hentry
      cases hentry

/-- What happens to the calls of a server is in order, so that nothing happens twice and no callback
is run after the end of its call. Every call with a callback has been answered or cancelled and its
data destroyed, or waits in the queue of a server that is starting or for the answer of a process
that runs. Nothing waits when the server is released. -/
theorem server_calls_answered {spawns : Bool} (h : Machine.Reachable step Answerable (new spawns) w) :
    Ordered w.log ∧
    (∀ call ∈ w.made, call.hasCallback →
      call ∈ w.core.waiting ∨
        (.ran call.ticket ∈ w.log ∨ .cancelled call.ticket ∈ w.log) ∧
          (call.hasDestroy → .destroyed call.ticket ∈ w.log)) ∧
    (∀ call ∈ w.core.waiting,
      call ∈ queuedCalls w.queued ∧ w.state = .starting ∨
        call ∈ clientCalls w.client ∧ w.state = .ready ∧ w.clientRuns) ∧
    (w.released = false → w.Answerable .release → (w.step .release).core.waiting = []) := by
  obtain ⟨hsteady, hanswered⟩ := answered_reachable h
  refine ⟨hanswered.valid.ordered, fun call hcall hcallback => ?_,
    fun call hcall => waiting_calls hsteady hanswered hcall, fun hlive hrelease => ?_⟩
  · by_cases hwait : call ∈ w.core.waiting
    · exact .inl hwait
    · refine .inr ⟨?_, fun hdestroy => ?_⟩
      · exact hanswered.valid.gone_ran call hcall (by simpa using hwait) (by simp) hcallback
      · exact hanswered.valid.gone_destroyed call hcall (by simpa using hwait) (by simp) hdestroy
  · have hstep : w.step .release = w.release := by simp [step, hlive]
    rw [hstep]
    exact (answered_release hanswered hsteady (hrelease.1 trivial)).2

/-- A call that is made while the server starts and answered by its process. -/
theorem calls_answered_queued :
    let w := [.call true true, .reply 1 (some (.object [])) none, .reply 2 none none].foldl step
      (new true)
    Ordered w.log ∧ .ran 0 ∈ w.log ∧ .destroyed 0 ∈ w.log := by
  intro w
  have hcall : Machine.Reachable step Answerable (new true) ((new true).step (.call true true)) :=
    .step .start ⟨fun h => h.elim, fun _ _ _ => ⟨fun _ => by decide, fun h => by cases h⟩⟩
  have hready := hcall.step (e := Event.reply 1 (some (.object [])) none)
    ⟨fun ⟨_, hfail⟩ => absurd ⟨rfl, [], rfl⟩ hfail, fun _ _ h => by cases h⟩
  have hanswer : Machine.Reachable step Answerable (new true) w := by
    refine .step (e := Event.reply 2 none none) hready ⟨?_, fun _ _ h => by cases h⟩
    rintro ⟨⟨client, hclient, -, hlookup⟩, -⟩
    have hsome : some ⟨true, false, [(2, .user ⟨0, true, true⟩)], 3⟩ = some client := hclient
    obtain rfl := Option.some.inj hsome
    exact absurd hlookup (by decide)
  obtain ⟨hordered, hcalls, -, -⟩ := server_calls_answered hanswer
  rcases hcalls ⟨0, true, true⟩ (by decide) rfl with hwait | ⟨hran | hcancel, hdestroy⟩
  · exact absurd hwait (by decide)
  · exact ⟨hordered, hran, hdestroy rfl⟩
  · exact absurd hcancel (by decide)

/-- Calls that are destroyed without an answer: one is queued while the server starts, and the server
answers the call of `initialize` with an error; one is made when the process could not be run. A call
that is made when a server that was ready has dropped its client is not even destroyed. -/
theorem calls_lost :
    ([.call true true, .reply 1 none (some [])].foldl step (new true)).log = [.destroyed 0] ∧
    ([.call true true].foldl step (new false)).log = [.destroyed 0] ∧
    ([.reply 1 (some (.object [])) none, .shutdown, .exitTimeout, .goOn, .call true true].foldl step
      (new true)).log = [] ∧
    ([.reply 1 (some (.object [])) none, .shutdown, .exitTimeout, .goOn, .call true true].foldl step
      (new true)).core.waiting = [] :=
  ⟨rfl, rfl, rfl, rfl⟩

end World

end Medit
