import Medit.Library.Machine
import Medit.Lsp.Client

/-!
# The answers of a client

Every call of a client is answered once, by a reply or because the server is gone, and a cancelled
one is not, as long as no call is cancelled that the loop of `fail_pending_calls` has still to
answer: that one is not in the table any more, and its callback is run all the same.

## Main results

* `ClientRun.Reachable.calls_answered` — the answers of every run.
* `ClientRun.cancel_while_failing` — a cancelled call whose callback is run.
-/

namespace Medit

open Calls

namespace ClientRun

/-- The calls in the loops of `fail_pending_calls`. -/
def failing (s : ClientRun) : List (ℤ × PendingCall) :=
  s.stack.flatMap fun frame =>
    match frame with
    | .answering _ => []
    | .failing calls => calls

/-- The calls whose callbacks are running. -/
def answering (s : ClientRun) : List PendingCall :=
  s.stack.flatMap fun frame =>
    match frame with
    | .answering call => [call]
    | .failing _ => []

/-- The calls that wait for an answer. -/
def waiting (s : ClientRun) : List (ℤ × PendingCall) := s.client.pending ++ s.failing

/-- A call may be cancelled unless a loop of `fail_pending_calls` has still to answer it. -/
def Allowed (s : ClientRun) : ClientEvent → Prop
  | .cancel id => id ∉ s.failing.map Prod.fst
  | _ => True

/-- The states of the runs in which every call that is cancelled may be. -/
abbrev Reachable (order : List (ℤ × PendingCall) → List (ℤ × PendingCall)) : ClientRun → Prop :=
  Machine.Reachable (step order) Allowed new

/-! ## Calls with ids -/

/-- The calls that wait, the ones whose callbacks are running, all calls that were made and what has
happened agree, and the ids tell the calls that were sent apart. -/
structure Agree (waiting : List (ℤ × PendingCall)) (answering : List PendingCall)
    (made : List (ℤ × PendingCall)) (log : List Note) (nextId : ℤ) : Prop where
  valid : Valid (waiting.map Prod.snd) answering (made.map Prod.snd) log
  wait_made : ∀ entry ∈ waiting, entry ∈ made
  ids : ∀ entry ∈ waiting, entry.1 ≠ 0
  unique : ∀ a ∈ made, ∀ b ∈ made, a.1 = b.1 → a.1 ≠ 0 → a = b
  fresh : ∀ entry ∈ made, entry.1 < nextId
  positive : 0 < nextId

section Agree

variable {waiting waiting' : List (ℤ × PendingCall)} {answering : List PendingCall}
  {made : List (ℤ × PendingCall)} {log : List Note} {nextId id : ℤ} {c : PendingCall}

theorem Agree.perm (h : Agree waiting answering made log nextId) (hw : waiting.Perm waiting') :
    Agree waiting' answering made log nextId where
  valid := h.valid.perm (hw.map _) (List.Perm.refl _)
  wait_made entry hentry := h.wait_made entry (hw.mem_iff.2 hentry)
  ids entry hentry := h.ids entry (hw.mem_iff.2 hentry)
  unique := h.unique
  fresh := h.fresh
  positive := h.positive

/-- A call is sent. -/
theorem Agree.enter (h : Agree waiting answering made log nextId) (hc : c.ticket = made.length) :
    Agree ((nextId, c) :: waiting) answering (made ++ [(nextId, c)]) log (nextId + 1) where
  valid := by simpa using h.valid.enter (c := c) (by simpa using hc)
  wait_made := by
    have := h.wait_made
    grind
  ids := by
    have := h.ids
    have := h.positive
    grind
  unique := by
    have := h.unique
    have := h.fresh
    grind
  fresh := by
    have := h.fresh
    grind
  positive := by
    have := h.positive
    omega

/-- The callback of a call that waits is run. -/
theorem Agree.answer (h : Agree ((id, c) :: waiting) answering made log nextId) :
    Agree waiting (c :: answering) made (log ++ c.runNotes) nextId where
  valid := h.valid.answer
  wait_made entry hentry := h.wait_made entry (List.mem_cons_of_mem _ hentry)
  ids entry hentry := h.ids entry (List.mem_cons_of_mem _ hentry)
  unique := h.unique
  fresh := h.fresh
  positive := h.positive

/-- A call is answered at once. -/
theorem Agree.refuse (h : Agree waiting answering made log nextId) (hc : c.ticket = made.length) :
    Agree waiting (c :: answering) (made ++ [(0, c)]) (log ++ c.runNotes) nextId where
  valid := by simpa using (h.valid.enter (c := c) (by simpa using hc)).answer
  wait_made entry hentry := List.mem_append_left _ (h.wait_made entry hentry)
  ids := h.ids
  unique := by
    have := h.unique
    grind
  fresh := by
    have := h.fresh
    have := h.positive
    grind
  positive := h.positive

theorem Agree.free (h : Agree waiting (c :: answering) made log nextId) :
    Agree waiting answering made (log ++ c.destroyNotes) nextId where
  valid := h.valid.free
  wait_made := h.wait_made
  ids := h.ids
  unique := h.unique
  fresh := h.fresh
  positive := h.positive

theorem Agree.nodup_tickets (h : Agree waiting answering made log nextId) :
    (made.map (·.2.ticket)).Nodup ∧ (waiting.map (·.2.ticket)).Nodup := by
  have htickets := h.valid.tickets
  have hnodup := h.valid.nodup
  rw [List.map_map] at htickets
  rw [List.map_append, List.map_map] at hnodup
  exact ⟨htickets ▸ List.nodup_range, (List.nodup_append.1 hnodup).1⟩

/-- An id that is not zero belongs to one call at most. -/
theorem Agree.filter_made (h : Agree waiting answering made log nextId)
    (hmem : (id, c) ∈ waiting) : made.filter (·.1 = id) = [(id, c)] := by
  refine List.perm_singleton.1 ((List.perm_ext_iff_of_nodup ?_ (by simp)).2 fun entry => ?_)
  · exact (List.Nodup.of_map _ h.nodup_tickets.1).filter _
  · simp only [List.mem_filter, decide_eq_true_eq, List.mem_singleton]
    refine ⟨fun ⟨hentry, heq⟩ =>
      h.unique _ hentry _ (h.wait_made _ hmem) heq (heq ▸ h.ids _ hmem), ?_⟩
    rintro rfl
    exact ⟨h.wait_made _ hmem, rfl⟩

/-- Taking the call of an id out of a table. -/
theorem Agree.perm_filter {rest : List (ℤ × PendingCall)}
    (h : Agree (waiting ++ rest) answering made log nextId) (hlookup : waiting.lookup id = some c) :
    (waiting ++ rest).Perm ((id, c) :: (waiting.filter (fun entry => entry.1 ≠ id) ++ rest)) := by
  have hmem : (id, c) ∈ waiting := by
    obtain ⟨pre, post, heq, -⟩ := List.lookup_eq_some_iff.1 hlookup
    simp [heq]
  have hnodup : (waiting.map (·.2.ticket)).Nodup := by
    have := h.nodup_tickets.2
    rw [List.map_append] at this
    exact (List.nodup_append.1 this).1
  have hone : waiting.filter (·.1 = id) = [(id, c)] := by
    have hmade := h.filter_made (List.mem_append_left rest hmem)
    refine List.perm_singleton.1 ((List.perm_ext_iff_of_nodup ?_ (by simp)).2 fun entry => ?_)
    · exact (List.Nodup.of_map _ hnodup).filter _
    · refine ⟨fun hentry => ?_, fun hentry => ?_⟩
      · obtain ⟨hentry, heq⟩ := List.mem_filter.1 hentry
        rw [← hmade]
        exact List.mem_filter.2 ⟨h.wait_made _ (List.mem_append_left _ hentry), heq⟩
      · rw [List.mem_singleton.1 hentry]
        simpa using hmem
  have hperm := List.filter_append_perm (fun entry : ℤ × PendingCall => entry.1 = id) waiting
  rw [hone] at hperm
  simpa using (hperm.symm.append_right rest)

theorem Agree.cancel (h : Agree ((id, c) :: waiting) answering made log nextId) :
    Agree waiting answering made
      (log ++ (made.filter (·.1 = id)).map (fun entry => .cancelled entry.2.ticket) ++
        c.destroyNotes) nextId where
  valid := by
    rw [h.filter_made (List.mem_cons_self)]
    exact h.valid.cancel
  wait_made entry hentry := h.wait_made entry (List.mem_cons_of_mem _ hentry)
  ids entry hentry := h.ids entry (List.mem_cons_of_mem _ hentry)
  unique := h.unique
  fresh := h.fresh
  positive := h.positive

/-- A call that does not wait any more is cancelled. -/
theorem Agree.cancel_late (h : Agree waiting answering made log nextId)
    (hid : id ∉ waiting.map Prod.fst) (hne : id ≠ 0) :
    Agree waiting answering made
      (log ++ (made.filter (·.1 = id)).map fun entry => .cancelled entry.2.ticket) nextId := by
  cases hfilter : made.filter (·.1 = id) with
  | nil => simpa using h
  | cons entry rest =>
    have hin : entry ∈ made.filter (·.1 = id) := by simp [hfilter]
    obtain ⟨hmade, hentry⟩ := List.mem_filter.1 hin
    obtain rfl : entry.1 = id := by simpa using hentry
    obtain rfl : rest = [] := by
      have hnodup := (List.Nodup.of_map _ h.nodup_tickets.1).filter fun entry' => entry'.1 = entry.1
      rw [hfilter] at hnodup
      refine List.eq_nil_iff_forall_not_mem.2 fun entry' hrest => ?_
      have hin' : entry' ∈ made.filter (·.1 = entry.1) := by simp [hfilter, hrest]
      obtain ⟨hmade', heq⟩ := List.mem_filter.1 hin'
      have heq : entry'.1 = entry.1 := by simpa using heq
      obtain rfl := h.unique _ hmade' _ hmade heq (heq ▸ hne)
      exact (List.nodup_cons.1 hnodup).1 hrest
    refine ⟨?_, h.wait_made, h.ids, h.unique, h.fresh, h.positive⟩
    refine h.valid.cancel_late (List.mem_map_of_mem hmade) fun hw => ?_
    obtain ⟨entry', hentry', heq⟩ := List.mem_map.1 hw
    obtain rfl := List.inj_on_of_nodup_map h.nodup_tickets.1 (h.wait_made _ hentry') hmade
      (by rw [heq])
    exact hid (List.mem_map_of_mem hentry')

end Agree

/-! ## Runs -/

/-- The client agrees with what has happened, and one that does not run has no pending calls. -/
structure Inv (s : ClientRun) : Prop where
  agree : Agree s.waiting s.answering s.made s.log s.client.nextId
  stopped : s.client.isRunning = false → s.client.pending = []

theorem inv_new : new.Inv :=
  ⟨⟨Valid.new, by simp [new, waiting, failing, Client.new],
    by simp [new, waiting, failing, Client.new], by simp [new], by simp [new],
    by simp [new, Client.new]⟩, by simp [new, Client.new]⟩

variable {s : ClientRun} {order : List (ℤ × PendingCall) → List (ℤ × PendingCall)}

theorem Inv.call (h : s.Inv) (hasCallback hasDestroy : Bool) :
    (s.call hasCallback hasDestroy).Inv := by
  unfold ClientRun.call
  split_ifs with hrun
  · refine ⟨(h.agree.enter rfl).perm ?_, fun hstop => ?_⟩
    · simp [waiting, Client.insert, failing, List.perm_middle.symm]
    · exact absurd hrun (by simpa [Client.insert, Client.isRunning] using hstop)
  · exact ⟨h.agree.refuse rfl, h.stopped⟩

theorem Inv.dispatch (h : s.Inv) (message : Option Json) : (s.dispatch message).Inv := by
  unfold ClientRun.dispatch
  split
  · exact h
  · split
    · rename_i id _
      cases hlookup : s.client.pending.lookup id with
      | none => exact h
      | some call =>
        refine ⟨(h.agree.perm (h.agree.perm_filter hlookup)).answer, fun hstop => ?_⟩
        rw [h.stopped hstop] at hlookup
        simp at hlookup
    · exact h

theorem Inv.cancel (h : s.Inv) {id : ℤ} (hid : id ∉ s.failing.map Prod.fst) :
    (s.cancel id).Inv := by
  unfold ClientRun.cancel
  split_ifs with hzero
  · exact h
  · dsimp only
    cases hlookup : s.client.pending.lookup id with
    | none =>
      refine ⟨h.agree.cancel_late (fun hin => ?_) hzero, h.stopped⟩
      obtain ⟨entry, hentry, rfl⟩ := List.mem_map.1 hin
      rcases List.mem_append.1 hentry with hpending | hfailing
      · simpa using List.lookup_eq_none_iff.1 hlookup entry hpending
      · exact hid (List.mem_map_of_mem hfailing)
    | some call =>
      refine ⟨(h.agree.perm (h.agree.perm_filter hlookup)).cancel, fun hstop => ?_⟩
      rw [h.stopped hstop] at hlookup
      simp at hlookup

/-- After `fail_pending_calls` there are no pending calls. -/
theorem inv_failPendingCalls (h : Agree s.waiting s.answering s.made s.log s.client.nextId)
    (horder : ∀ l, (order l).Perm l) : (s.failPendingCalls order).Inv := by
  unfold ClientRun.failPendingCalls
  split_ifs with hnil
  · exact ⟨h, fun _ => hnil⟩
  · refine ⟨h.perm ?_, fun _ => rfl⟩
    have hperm := ((List.reverse_perm (order s.client.pending)).trans
      (horder s.client.pending)).symm
    simpa [waiting, failing, Client.stealAll] using hperm.append_right s.failing

theorem Inv.goOn (h : s.Inv) : s.goOn.Inv := by
  obtain ⟨client, made, stack, log⟩ := s
  cases stack with
  | nil => exact h
  | cons frame stack =>
    cases frame with
    | answering call => exact ⟨h.agree.free, h.stopped⟩
    | failing calls =>
      cases calls with
      | nil => exact ⟨h.agree, h.stopped⟩
      | cons entry calls => exact ⟨(h.agree.perm List.perm_middle).answer, h.stopped⟩

theorem Inv.step (horder : ∀ l, (order l).Perm l) (h : s.Inv) {e : ClientEvent}
    (he : s.Allowed e) : (s.step order e).Inv := by
  cases e with
  | call hasCallback hasDestroy => exact h.call hasCallback hasDestroy
  | cancel id => exact h.cancel he
  | incoming message => exact h.dispatch message
  | exited =>
    show (s.exited order).Inv
    unfold ClientRun.exited
    split_ifs
    · exact inv_failPendingCalls h.agree horder
    · exact h
  | disconnect =>
    show (s.disconnect order).Inv
    unfold ClientRun.disconnect
    split_ifs
    · exact h
    · exact inv_failPendingCalls h.agree horder
  | goOn => exact h.goOn

/-- How often the running functions can go on. -/
def toGo (s : ClientRun) : ℕ :=
  (s.stack.map fun frame =>
    match frame with
    | .answering _ => 1
    | .failing calls => 2 * calls.length + 1).sum

theorem toGo_goOn (h : s.stack ≠ []) : s.goOn.toGo < s.toGo := by
  obtain ⟨client, made, stack, log⟩ := s
  cases stack with
  | nil => exact absurd rfl h
  | cons frame stack =>
    cases frame with
    | answering call =>
      simp only [ClientRun.goOn, free, toGo, List.map_cons, List.sum_cons]
      omega
    | failing calls =>
      cases calls <;>
        simp only [ClientRun.goOn, answer, toGo, List.map_cons, List.sum_cons, List.length_nil,
          List.length_cons] <;> omega

/-! ## Results -/

/-- In every run in which no call is cancelled that a loop of `fail_pending_calls` has still to
answer: no callback is run twice, after its data has been destroyed, or after its call has been
cancelled, and no data is destroyed twice; the running functions come to their end; and when they
have and the client has exited or been disconnected, no call is pending, the data of every call has
been destroyed and its callback has run unless it was cancelled. -/
theorem Reachable.calls_answered (horder : ∀ l, (order l).Perm l) (h : Reachable order s) :
    Ordered s.log ∧ (∃ n, (ClientRun.goOn^[n] s).stack = []) ∧
      (s.stack = [] → s.client.isRunning = false → s.client.pending = [] ∧
        ∀ entry ∈ s.made, (entry.2.hasDestroy → .destroyed entry.2.ticket ∈ s.log) ∧
          (entry.2.hasCallback →
            .ran entry.2.ticket ∈ s.log ∨ .cancelled entry.2.ticket ∈ s.log)) := by
  have hinv : s.Inv := Machine.Reachable.invariant h inv_new fun s e he hs => hs.step horder he
  refine ⟨hinv.agree.valid.ordered, Machine.exists_rest toGo (fun s => toGo_goOn) s,
    fun hstack hstop => ⟨hinv.stopped hstop, fun entry hentry => ?_⟩⟩
  have hvalid := hinv.agree.valid
  simp only [waiting, failing, answering, hinv.stopped hstop, hstack, List.flatMap_nil,
    List.append_nil, List.map_nil] at hvalid
  exact hvalid.all_gone (List.mem_map_of_mem hentry)

/-- A call that is answered because the server exits. -/
theorem Reachable.calls_answered_exit :
    let s := [.call true true, .exited, .goOn, .goOn, .goOn].foldl (step fun l => l) new
    s.client.pending = [] ∧ .destroyed 0 ∈ s.log ∧ (.ran 0 ∈ s.log ∨ .cancelled 0 ∈ s.log) := by
  intro s
  have hcall : Reachable (fun l => l) (new.step (fun l => l) (.call true true)) :=
    .step (e := ClientEvent.call true true) .start trivial
  have hexit := hcall.step (e := ClientEvent.exited) trivial
  have hreach : Reachable (fun l => l) s :=
    ((hexit.step (e := ClientEvent.goOn) trivial).step (e := ClientEvent.goOn) trivial).step
      (e := ClientEvent.goOn) trivial
  have h := (Reachable.calls_answered (fun l => List.Perm.refl l) hreach).2.2 rfl rfl
  have hentry := h.2 (1, ⟨0, true, true⟩) (by decide)
  exact ⟨h.1, hentry.1 rfl, hentry.2 rfl⟩

/-- Of two pending calls, the callback of the one that is answered first cancels the other one when
the server has exited, and the callback of that one is run after it. -/
theorem cancel_while_failing :
    ¬ Ordered ([.call true true, .call true true, .exited, .goOn, .cancel 1, .goOn, .goOn].foldl
      (step fun l => l) new).log := by
  unfold Ordered
  decide

end ClientRun

end Medit
