import Mathlib.Data.List.Nodup
import Mathlib.Data.List.Perm.Basic

/-!
# Calls with callbacks

Calls that wait for an answer, each with a callback that is to be run once and data that is to be
destroyed once, after the callback. A call may be cancelled, and is then not answered any more.

## Main definitions

* `Call`, `Note` — a call, and what may happen to it.
* `Ordered` — what may not happen after what.
* `Valid` — the waiting calls, the ones whose callbacks are running and what has happened agree.

## Main results

* `Valid.enter`, `Valid.answer`, `Valid.free`, `Valid.cancel`, `Valid.cancel_late` — the operations.
* `Valid.finish`, `Valid.discard` — some of them at once.
* `Valid.all_gone` — in the end every call has been dealt with.
-/

namespace Calls

/-- A call, told from the others by its number. -/
structure Call where
  ticket : ℕ
  hasCallback : Bool
  hasDestroy : Bool
  deriving DecidableEq, Repr

/-- What has happened to a call. -/
inductive Note where
  | ran (ticket : ℕ)
  | destroyed (ticket : ℕ)
  | cancelled (ticket : ℕ)
  deriving DecidableEq, Repr

def Note.ticket : Note → ℕ
  | ran t => t
  | destroyed t => t
  | cancelled t => t

/-- The notes about a callback that is run, and about data that is destroyed. -/
def Call.runNotes (c : Call) : List Note := if c.hasCallback then [.ran c.ticket] else []

def Call.destroyNotes (c : Call) : List Note := if c.hasDestroy then [.destroyed c.ticket] else []

/-- The second note may come after the first one: nothing happens twice, and no callback is run
after its data has been destroyed or its call cancelled. -/
def Note.Before : Note → Note → Prop
  | ran t, ran u => t ≠ u
  | destroyed t, destroyed u => t ≠ u
  | destroyed t, ran u => t ≠ u
  | cancelled t, ran u => t ≠ u
  | _, _ => True

instance : DecidableRel Note.Before := fun a b => by
  cases a <;> cases b <;> unfold Note.Before <;> infer_instance

/-- What has happened is in order. -/
def Ordered (log : List Note) : Prop := log.Pairwise Note.Before

/-- Of the calls that were made, `waiting` have not been answered and `answering` are the ones whose
callbacks are running. -/
structure Valid (waiting answering made : List Call) (log : List Note) : Prop where
  nodup : ((waiting ++ answering).map (·.ticket)).Nodup
  tickets : made.map (·.ticket) = List.range made.length
  live_made : ∀ c ∈ waiting ++ answering, c ∈ made
  log_made : ∀ n ∈ log, n.ticket < made.length
  waiting_log : ∀ c ∈ waiting, ∀ n ∈ log, n.ticket ≠ c.ticket
  answering_destroyed : ∀ c ∈ answering, .destroyed c.ticket ∉ log
  answering_ran : ∀ c ∈ answering, c.hasCallback → .ran c.ticket ∈ log
  gone_destroyed : ∀ c ∈ made, c ∉ waiting → c ∉ answering → c.hasDestroy →
    .destroyed c.ticket ∈ log
  gone_ran : ∀ c ∈ made, c ∉ waiting → c ∉ answering → c.hasCallback →
    .ran c.ticket ∈ log ∨ .cancelled c.ticket ∈ log
  ordered : Ordered log

variable {waiting answering made waiting' answering' : List Call} {log : List Note} {c : Call}

theorem Note.before_of_ne {a b : Note} (h : a.ticket ≠ b.ticket) : a.Before b := by
  cases a <;> cases b <;> simp_all [Note.Before, Note.ticket]

theorem mem_runNotes {n : Note} : n ∈ c.runNotes ↔ c.hasCallback ∧ n = .ran c.ticket := by
  unfold Call.runNotes
  split <;> simp_all

theorem mem_destroyNotes {n : Note} :
    n ∈ c.destroyNotes ↔ c.hasDestroy ∧ n = .destroyed c.ticket := by
  unfold Call.destroyNotes
  split <;> simp_all

theorem Ordered.append_one (h : Ordered log) {n : Note} (hn : ∀ m ∈ log, m.Before n) :
    Ordered (log ++ [n]) :=
  List.pairwise_append.2 ⟨h, by simp, fun m hm n' hn' => List.mem_singleton.1 hn' ▸ hn m hm⟩

theorem Ordered.append_run (h : Ordered log) (hc : ∀ n ∈ log, n.ticket ≠ c.ticket) :
    Ordered (log ++ c.runNotes) := by
  unfold Call.runNotes
  split
  · exact h.append_one fun m hm => Note.before_of_ne (hc m hm)
  · simpa using h

theorem Ordered.append_destroy (h : Ordered log) (hc : .destroyed c.ticket ∉ log) :
    Ordered (log ++ c.destroyNotes) := by
  unfold Call.destroyNotes
  split
  · refine h.append_one fun m hm => ?_
    cases m with
    | destroyed t =>
      show t ≠ c.ticket
      rintro rfl
      exact hc hm
    | _ => trivial
  · simpa using h

/-! ## Operations -/

namespace Valid

theorem new : Valid [] [] [] [] where
  nodup := List.nodup_nil
  tickets := rfl
  live_made := by simp
  log_made := by simp
  waiting_log := by simp
  answering_destroyed := by simp
  answering_ran := by simp
  gone_destroyed := by simp
  gone_ran := by simp
  ordered := List.Pairwise.nil

theorem perm (h : Valid waiting answering made log) (hw : waiting.Perm waiting')
    (ha : answering.Perm answering') : Valid waiting' answering' made log where
  nodup := (((hw.append ha).map _).nodup_iff).1 h.nodup
  tickets := h.tickets
  live_made c hc := h.live_made c ((hw.append ha).mem_iff.2 hc)
  log_made := h.log_made
  waiting_log c hc := h.waiting_log c (hw.mem_iff.2 hc)
  answering_destroyed c hc := h.answering_destroyed c (ha.mem_iff.2 hc)
  answering_ran c hc := h.answering_ran c (ha.mem_iff.2 hc)
  gone_destroyed c hc hcw hca := h.gone_destroyed c hc (mt hw.mem_iff.1 hcw) (mt ha.mem_iff.1 hca)
  gone_ran c hc hcw hca := h.gone_ran c hc (mt hw.mem_iff.1 hcw) (mt ha.mem_iff.1 hca)
  ordered := h.ordered

theorem ticket_lt (h : Valid waiting answering made log) (hc : c ∈ made) :
    c.ticket < made.length := by
  have hmem := List.mem_map_of_mem (f := (·.ticket)) hc
  rw [h.tickets] at hmem
  exact List.mem_range.1 hmem

theorem eq_of_ticket_eq (h : Valid waiting answering made log) {d : Call} (hc : c ∈ made)
    (hd : d ∈ made) (heq : c.ticket = d.ticket) : c = d := by
  have hnodup : (made.map (·.ticket)).Nodup := h.tickets ▸ List.nodup_range
  exact List.inj_on_of_nodup_map hnodup hc hd heq

/-- A call with the next number. -/
theorem enter (h : Valid waiting answering made log) (hc : c.ticket = made.length) :
    Valid (c :: waiting) answering (made ++ [c]) log where
  nodup := by
    refine List.nodup_cons.2 ⟨fun hmem => ?_, h.nodup⟩
    obtain ⟨d, hd, hdc⟩ := List.mem_map.1 hmem
    have := h.ticket_lt (h.live_made d hd)
    simp only at hdc
    omega
  tickets := by simp [h.tickets, List.range_succ, hc]
  live_made d hd := by
    rcases List.mem_cons.1 hd with rfl | hd
    · simp
    · exact List.mem_append_left _ (h.live_made d hd)
  log_made n hn := by
    have := h.log_made n hn
    rw [List.length_append]
    omega
  waiting_log d hd n hn := by
    rcases List.mem_cons.1 hd with rfl | hd
    · exact hc ▸ Nat.ne_of_lt (h.log_made n hn)
    · exact h.waiting_log d hd n hn
  answering_destroyed := h.answering_destroyed
  answering_ran := h.answering_ran
  gone_destroyed d hd hw ha := by
    have hdc : d ≠ c := fun heq => hw (heq ▸ List.mem_cons_self)
    exact h.gone_destroyed d (by simpa [hdc] using hd) (mt (List.mem_cons_of_mem c) hw) ha
  gone_ran d hd hw ha := by
    have hdc : d ≠ c := fun heq => hw (heq ▸ List.mem_cons_self)
    exact h.gone_ran d (by simpa [hdc] using hd) (mt (List.mem_cons_of_mem c) hw) ha
  ordered := h.ordered

/-- The callback of a waiting call starts. -/
theorem answer (h : Valid (c :: waiting) answering made log) :
    Valid waiting (c :: answering) made (log ++ c.runNotes) := by
  obtain ⟨hc, -⟩ := List.nodup_cons.1 h.nodup
  have hne : ∀ d ∈ waiting ++ answering, d.ticket ≠ c.ticket := fun d hd heq =>
    hc (List.mem_map.2 ⟨d, hd, heq⟩)
  have hlog : ∀ n ∈ log, n.ticket ≠ c.ticket := h.waiting_log c (by simp)
  have hmade : c ∈ made := h.live_made c (by simp)
  refine ⟨?_, h.tickets, ?_, ?_, ?_, ?_, ?_, ?_, ?_, h.ordered.append_run hlog⟩
  · have hperm : (c :: (waiting ++ answering)).Perm (waiting ++ c :: answering) :=
      List.perm_middle.symm
    exact ((hperm.map (·.ticket)).nodup_iff).1 h.nodup
  · exact fun d hd => h.live_made d (List.perm_middle.mem_iff.1 hd)
  · intro n hn
    rcases List.mem_append.1 hn with hn | hn
    · exact h.log_made n hn
    · obtain ⟨-, rfl⟩ := mem_runNotes.1 hn
      exact h.ticket_lt hmade
  · intro d hd n hn
    rcases List.mem_append.1 hn with hn | hn
    · exact h.waiting_log d (by simp [hd]) n hn
    · obtain ⟨-, rfl⟩ := mem_runNotes.1 hn
      exact (hne d (by simp [hd])).symm
  · intro d hd hn
    have hn' : .destroyed d.ticket ∈ log := by simpa [mem_runNotes] using hn
    rcases List.mem_cons.1 hd with rfl | hd
    · exact hlog (.destroyed d.ticket) hn' rfl
    · exact h.answering_destroyed d hd hn'
  · intro d hd hcb
    rcases List.mem_cons.1 hd with rfl | hd
    · exact List.mem_append_right _ (mem_runNotes.2 ⟨hcb, rfl⟩)
    · exact List.mem_append_left _ (h.answering_ran d hd hcb)
  · intro d hd hw ha hdes
    have hdc : d ≠ c := fun heq => ha (heq ▸ List.mem_cons_self)
    exact List.mem_append_left _ (h.gone_destroyed d hd (by simp [hdc, hw])
      (mt (List.mem_cons_of_mem c) ha) hdes)
  · intro d hd hw ha hcb
    have hdc : d ≠ c := fun heq => ha (heq ▸ List.mem_cons_self)
    exact (h.gone_ran d hd (by simp [hdc, hw]) (mt (List.mem_cons_of_mem c) ha) hcb).imp
      (List.mem_append_left _) (List.mem_append_left _)

/-- The callback of a call has returned, and its data is destroyed. -/
theorem free (h : Valid waiting (c :: answering) made log) :
    Valid waiting answering made (log ++ c.destroyNotes) := by
  have hperm : (waiting ++ c :: answering).Perm (c :: (waiting ++ answering)) := List.perm_middle
  have hnodup := ((hperm.map (·.ticket)).nodup_iff).1 h.nodup
  obtain ⟨hc, hrest⟩ := List.nodup_cons.1 hnodup
  have hne : ∀ d ∈ waiting ++ answering, d.ticket ≠ c.ticket := fun d hd heq =>
    hc (List.mem_map.2 ⟨d, hd, heq⟩)
  refine ⟨hrest, h.tickets, fun d hd => h.live_made d (hperm.mem_iff.2 (by simp [hd])), ?_, ?_, ?_,
    ?_, ?_, ?_, h.ordered.append_destroy (h.answering_destroyed c (by simp))⟩
  · intro n hn
    rcases List.mem_append.1 hn with hn | hn
    · exact h.log_made n hn
    · obtain ⟨-, rfl⟩ := mem_destroyNotes.1 hn
      exact h.ticket_lt (h.live_made c (by simp))
  · intro d hd n hn
    rcases List.mem_append.1 hn with hn | hn
    · exact h.waiting_log d hd n hn
    · obtain ⟨-, rfl⟩ := mem_destroyNotes.1 hn
      exact (hne d (by simp [hd])).symm
  · intro d hd hn
    rcases List.mem_append.1 hn with hn | hn
    · exact h.answering_destroyed d (by simp [hd]) hn
    · obtain ⟨-, heq⟩ := mem_destroyNotes.1 hn
      exact hne d (by simp [hd]) (by simpa using heq)
  · exact fun d hd hcb => List.mem_append_left _ (h.answering_ran d (by simp [hd]) hcb)
  · intro d hd hw ha hdes
    rcases eq_or_ne d c with rfl | hdc
    · exact List.mem_append_right _ (mem_destroyNotes.2 ⟨hdes, rfl⟩)
    · exact List.mem_append_left _ (h.gone_destroyed d hd hw (by simp [hdc, ha]) hdes)
  · intro d hd hw ha hcb
    refine Or.imp (List.mem_append_left _) (List.mem_append_left _) ?_
    rcases eq_or_ne d c with rfl | hdc
    · exact .inl (h.answering_ran d (by simp) hcb)
    · exact h.gone_ran d hd hw (by simp [hdc, ha]) hcb

/-- The callback of a waiting call is run, and its data destroyed. -/
theorem finish (h : Valid (c :: waiting) answering made log) :
    Valid waiting answering made (log ++ c.runNotes ++ c.destroyNotes) := h.answer.free

/-- Waiting calls without callbacks are thrown away. -/
theorem discard {calls : List Call} (h : Valid (calls ++ waiting) answering made log)
    (hmute : ∀ c ∈ calls, c.hasCallback = false) :
    Valid waiting answering made (log ++ calls.flatMap Call.destroyNotes) := by
  induction calls generalizing log with
  | nil => simpa using h
  | cons c calls ih =>
    have hc : c.runNotes = [] := by simp [Call.runNotes, hmute c (by simp)]
    have hfinish := h.finish
    rw [hc, List.append_nil] at hfinish
    simpa using ih hfinish fun d hd => hmute d (List.mem_cons_of_mem c hd)

/-- A call that does not wait any more is cancelled. -/
theorem cancel_late (h : Valid waiting answering made log) (hc : c ∈ made) (hw : c ∉ waiting) :
    Valid waiting answering made (log ++ [.cancelled c.ticket]) where
  nodup := h.nodup
  tickets := h.tickets
  live_made := h.live_made
  log_made n hn := by
    rcases List.mem_append.1 hn with hn | hn
    · exact h.log_made n hn
    · obtain rfl := List.mem_singleton.1 hn
      exact h.ticket_lt hc
  waiting_log d hd n hn := by
    rcases List.mem_append.1 hn with hn | hn
    · exact h.waiting_log d hd n hn
    · obtain rfl := List.mem_singleton.1 hn
      intro heq
      exact hw (h.eq_of_ticket_eq hc (h.live_made d (by simp [hd])) heq ▸ hd)
  answering_destroyed d hd := by simpa using h.answering_destroyed d hd
  answering_ran d hd hcb := List.mem_append_left _ (h.answering_ran d hd hcb)
  gone_destroyed d hd hw ha hdes := List.mem_append_left _ (h.gone_destroyed d hd hw ha hdes)
  gone_ran d hd hw ha hcb :=
    (h.gone_ran d hd hw ha hcb).imp (List.mem_append_left _) (List.mem_append_left _)
  ordered := h.ordered.append_one fun m _ => by cases m <;> trivial

/-- A waiting call is cancelled. -/
theorem cancel (h : Valid (c :: waiting) answering made log) :
    Valid waiting answering made (log ++ [.cancelled c.ticket] ++ c.destroyNotes) := by
  obtain ⟨hc, hrest⟩ := List.nodup_cons.1 h.nodup
  have hne : ∀ d ∈ waiting ++ answering, d.ticket ≠ c.ticket := fun d hd heq =>
    hc (List.mem_map.2 ⟨d, hd, heq⟩)
  have hlog : ∀ n ∈ log, n.ticket ≠ c.ticket := h.waiting_log c (by simp)
  have hnew : ∀ n ∈ [.cancelled c.ticket] ++ c.destroyNotes, n.ticket = c.ticket := by
    intro n hn
    rcases List.mem_append.1 hn with hn | hn
    · rw [List.mem_singleton.1 hn, Note.ticket]
    · rw [(mem_destroyNotes.1 hn).2, Note.ticket]
  rw [List.append_assoc]
  refine ⟨hrest, h.tickets, fun d hd => h.live_made d (List.mem_cons_of_mem c hd), ?_, ?_, ?_,
    fun d hd hcb => List.mem_append_left _ (h.answering_ran d hd hcb), ?_, ?_, ?_⟩
  · intro n hn
    rcases List.mem_append.1 hn with hn | hn
    · exact h.log_made n hn
    · exact hnew n hn ▸ h.ticket_lt (h.live_made c (by simp))
  · intro d hd n hn
    rcases List.mem_append.1 hn with hn | hn
    · exact h.waiting_log d (by simp [hd]) n hn
    · rw [hnew n hn]
      exact (hne d (by simp [hd])).symm
  · intro d hd hn
    rcases List.mem_append.1 hn with hn | hn
    · exact h.answering_destroyed d hd hn
    · exact hne d (by simp [hd]) (hnew _ hn)
  · intro d hd hw ha hdes
    rcases eq_or_ne d c with rfl | hdc
    · exact List.mem_append_right _ (List.mem_append_right _ (mem_destroyNotes.2 ⟨hdes, rfl⟩))
    · exact List.mem_append_left _ (h.gone_destroyed d hd (by simp [hdc, hw]) ha hdes)
  · intro d hd hw ha hcb
    rcases eq_or_ne d c with rfl | hdc
    · exact .inr (List.mem_append_right _ (by simp))
    · exact (h.gone_ran d hd (by simp [hdc, hw]) ha hcb).imp (List.mem_append_left _)
        (List.mem_append_left _)
  · have hcancel : Ordered (log ++ [.cancelled c.ticket]) :=
      h.ordered.append_one fun m _ => by cases m <;> trivial
    rw [← List.append_assoc]
    refine hcancel.append_destroy fun hn => ?_
    have hn : .destroyed c.ticket ∈ log := by simpa using hn
    exact hlog _ hn rfl

/-- In the end every call has been dealt with: its data is destroyed, and its callback has run
unless it was cancelled. -/
theorem all_gone (h : Valid [] [] made log) (hc : c ∈ made) :
    (c.hasDestroy → .destroyed c.ticket ∈ log) ∧
      (c.hasCallback → .ran c.ticket ∈ log ∨ .cancelled c.ticket ∈ log) :=
  ⟨h.gone_destroyed c hc (by simp) (by simp), h.gone_ran c hc (by simp) (by simp)⟩

end Valid

end Calls
