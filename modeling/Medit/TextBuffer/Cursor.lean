import Medit.TextBuffer.UndoRuns

/-!
# The cursor after undo and redo

Typing is a sequence of user actions, each with insertions at any place, with undo and redo between
them. All its actions are interactive insertions, so that undo and redo place the cursor.

## Main definitions

* `Typing` — a user action, undo or redo.
* `TextBuffer.undoCursor`, `TextBuffer.redoCursor` — where `after_undo_redo` places the cursor.

## Main results

* `Session.typing_cursor` — the cursor after the undo of an action and after its redo.
-/

namespace Medit

namespace TextBuffer

/-- `after_undo_redo`, before it forgets `move_cursor_to`: where the cursor is placed, if it is. An
offset past the end is taken as the end. -/
def afterUndoRedo (b : TextBuffer) : Option ℕ :=
  if 0 ≤ b.moveCursorTo then some (min b.moveCursorTo.toNat b.text.length) else none

/-- Where `moo_undo_stack_undo` leaves the cursor. -/
def undoCursor (b : TextBuffer) : Option ℕ :=
  match b.undoStack with
  | [] => none
  | group :: rest => ((b.beginUndo group rest).actionGroupUndo group).afterUndoRedo

/-- Where `moo_undo_stack_redo` leaves the cursor. -/
def redoCursor (b : TextBuffer) : Option ℕ :=
  match b.redoStack with
  | [] => none
  | group :: rest => ((b.beginRedo group rest).actionGroupRedo group).afterUndoRedo

end TextBuffer

/-- What the user does: insertions in one user action, undo or redo. -/
inductive Typing where
  | insert (texts : List (ℕ × List UInt8))
  | undo
  | redo

def Typing.ops : Typing → List Op
  | insert texts =>
    .beginUserAction :: texts.map (fun text => .insert text.1 text.2) ++ [.endUserAction]
  | undo => [.undo]
  | redo => [.redo]

/-! ## Interactive insertions -/

/-- The action is an interactive insertion. -/
def Wrapper.Typed (w : Wrapper) : Prop := ∃ a, w.action = .insert a ∧ a.interactive = true

/-- A group of interactive insertions. -/
def TypedGroup (group : ActionGroup) : Prop := group ≠ [] ∧ ∀ w ∈ group, w.Typed

/-- All groups of a stack are of interactive insertions. -/
def TypedStack (stack : List ActionGroup) : Prop := ∀ group ∈ stack, TypedGroup group

theorem insertActionMerge_interactive (M : Option ActionPtr) (last action : InsertAction)
    (addr : ActionPtr) :
    (insertActionMerge M last action addr).1.interactive = last.interactive := by
  obtain ⟨hedit, -⟩ := actionMerge_spec M last.toEditAction action.toEditAction addr
  unfold insertActionMerge
  split
  · next edit heq =>
    rw [heq] at hedit
    simp only at hedit ⊢
    rw [hedit]
  · split_ifs <;> rfl

namespace TextBuffer

variable {b : TextBuffer} {group : ActionGroup} {w : Wrapper}

theorem typed_actionGroupMerge (hgroup : TypedGroup group) (hw : w.Typed) :
    TypedGroup (b.actionGroupMerge group w).2.1 := by
  obtain ⟨a, ha, hinteractive⟩ := hw
  obtain ⟨old, rest, rfl⟩ := List.exists_cons_of_ne_nil hgroup.1
  obtain ⟨⟨last, hlast, hold⟩, hrest⟩ := List.forall_mem_cons.1 hgroup.2
  simp only [actionGroupMerge, hlast, ha]
  refine ⟨List.cons_ne_nil _ _, List.forall_mem_cons.2 ⟨⟨_, rfl, ?_⟩, hrest⟩⟩
  rw [insertActionMerge_interactive, hold]

theorem typed_new (hw : w.Typed) (tryMerge : Bool) :
    TypedGroup (b.actionGroupAdd [] w tryMerge).2 := by
  have hsingle : TypedGroup [w] := ⟨List.cons_ne_nil _ _, List.forall_mem_singleton.2 hw⟩
  cases tryMerge <;> exact hsingle

theorem typed_actionGroupAdd (hgroup : TypedGroup group) (hw : w.Typed) :
    TypedGroup (b.actionGroupAdd group w true).2 := by
  have hmerge := typed_actionGroupMerge (b := b) hgroup hw
  simp only [actionGroupAdd, if_true]
  generalize b.actionGroupMerge group w = r at hmerge ⊢
  obtain ⟨b', group', _ | _⟩ := r
  · exact ⟨List.cons_ne_nil _ _, List.forall_mem_cons.2 ⟨hw, hmerge.2⟩⟩
  · exact hmerge

theorem typed_pushAction (hstack : TypedStack b.undoStack) (hw : w.Typed) :
    TypedStack (b.pushAction w).undoStack := by
  unfold pushAction
  split
  · exact List.forall_mem_singleton.2 (typed_new hw _)
  · next group rest hus =>
    rw [hus] at hstack
    obtain ⟨hgroup, hrest⟩ := List.forall_mem_cons.1 hstack
    split_ifs
    · exact List.forall_mem_cons.2 ⟨typed_new hw _, hstack⟩
    · exact List.forall_mem_cons.2 ⟨typed_actionGroupAdd hgroup hw, hrest⟩
    · have hmerge := typed_actionGroupMerge (b := b) hgroup hw
      generalize b.actionGroupMerge group w = r at hmerge ⊢
      obtain ⟨b', group', _ | _⟩ := r
      · exact List.forall_mem_cons.2 ⟨typed_new hw _, List.forall_mem_cons.2 ⟨hmerge, hrest⟩⟩
      · exact List.forall_mem_cons.2 ⟨hmerge, hrest⟩

/-- What holds between the user actions, with `n` of them open. -/
structure Typed (b : TextBuffer) (n : ℕ) : Prop where
  undoStack : TypedStack b.undoStack
  redoStack : TypedStack b.redoStack
  userActionCount : b.userActionCount = n
  nonInteractive : b.nonInteractive = 0

namespace Typed

variable {n : ℕ}

theorem addAction (h : b.Typed n) (hf : b.frozen = 0) (hw : w.Typed) : (b.addAction w).Typed n := by
  obtain ⟨us, heq, -⟩ := b.pushAction_spec w
  have hus := typed_pushAction h.undoStack hw
  rw [heq] at hus
  simp only [TextBuffer.addAction, hf, heq, actionStackFree_eq]
  exact ⟨hus, by simp [TypedStack], h.userActionCount, h.nonInteractive⟩

theorem insertText (h : b.Typed (n + 1)) (hf : b.frozen = 0) (pos : ℕ) (text : List UInt8) :
    (b.insertText pos text).Typed (n + 1) := by
  unfold TextBuffer.insertText
  cases utf8Validate text with
  | none => exact h
  | some cs =>
    dsimp only
    split_ifs with hnil
    · exact h
    · have hnew : (b.insertActionNew (min pos b.text.length) text).1.Typed (n + 1) :=
        ⟨h.undoStack, h.redoStack, h.userActionCount, h.nonInteractive⟩
      have hw : (b.insertActionNew (min pos b.text.length) text).2.Typed :=
        ⟨_, rfl, by simp [h.userActionCount, h.nonInteractive]⟩
      have hadd := hnew.addAction hf hw
      rw [setModified_true]
      exact ⟨hadd.undoStack, hadd.redoStack, hadd.userActionCount, hadd.nonInteractive⟩

theorem beginUserAction (h : b.Typed n) : b.beginUserAction.Typed (n + 1) :=
  ⟨h.undoStack, h.redoStack, congrArg (· + 1) h.userActionCount, h.nonInteractive⟩

theorem endUserAction (h : b.Typed (n + 1)) : b.endUserAction.Typed n := by
  have hcount : b.endUserAction.userActionCount = n := by
    rw [TextBuffer.endUserAction]
    exact congrArg (· - 1) h.userActionCount
  have hgroup : b.endGroup.undoStack = b.undoStack ∧ b.endGroup.redoStack = b.redoStack ∧
      b.endGroup.nonInteractive = b.nonInteractive := by
    unfold endGroup
    split_ifs <;> exact ⟨rfl, rfl, rfl⟩
  refine ⟨?_, ?_, hcount, hgroup.2.2.trans h.nonInteractive⟩
  · exact hgroup.1 ▸ h.undoStack
  · exact hgroup.2.1 ▸ h.redoStack

end Typed

end TextBuffer

namespace Session

variable {s : Session}

theorem step_buffer (s : Session) (op : Op) : (s.step op).buffer = op.run s.buffer := by
  cases op with
  | insert pos text =>
    simp only [step, edit]
    split_ifs <;> rfl
  | delete start stop cursor =>
    simp only [step, edit]
    split_ifs <;> rfl
  | _ => rfl

theorem typed_undo (h : s.Inv) (ht : s.buffer.Typed 0) : s.buffer.undo.Typed 0 := by
  cases hus : s.buffer.undoStack with
  | nil => simpa [TextBuffer.undo, hus] using ht
  | cons group rest =>
    obtain ⟨x, y, c, m, M, place, -, -, heq, -⟩ := h.undoing hus (List.prefix_refl _)
    have hstack := ht.undoStack
    rw [hus] at hstack
    obtain ⟨hgroup, hrest⟩ := List.forall_mem_cons.1 hstack
    simp only [TextBuffer.undo, hus, heq]
    exact ⟨hrest, List.forall_mem_cons.2 ⟨hgroup, ht.redoStack⟩, ht.userActionCount,
      ht.nonInteractive⟩

theorem typed_redo (h : s.Inv) (ht : s.buffer.Typed 0) : s.buffer.redo.Typed 0 := by
  cases hrs : s.buffer.redoStack with
  | nil => simpa [TextBuffer.redo, hrs] using ht
  | cons group rest =>
    obtain ⟨x, y, c, m, M, place, -, -, heq, -⟩ := h.redoing hrs (List.prefix_refl _)
    have hstack := ht.redoStack
    rw [hrs] at hstack
    obtain ⟨hgroup, hrest⟩ := List.forall_mem_cons.1 hstack
    simp only [TextBuffer.redo, hrs, TextBuffer.actionGroupRedo, heq]
    exact ⟨List.forall_mem_cons.2 ⟨hgroup, ht.undoStack⟩, hrest, ht.userActionCount,
      ht.nonInteractive⟩

/-- The insertions of one user action. -/
theorem typed_inserts (texts : List (ℕ × List UInt8)) (h : s.Inv) {n : ℕ}
    (ht : s.buffer.Typed (n + 1)) :
    ((texts.map fun text => Op.insert text.1 text.2).foldl step s).buffer.Typed (n + 1) := by
  induction texts generalizing s with
  | nil => exact ht
  | cons text texts ih =>
    refine ih (h.step (.insert text.1 text.2)) ?_
    rw [step_buffer]
    exact ht.insertText h.frozen _ _

theorem typed_typing (t : Typing) (h : s.Inv) (ht : s.buffer.Typed 0) :
    (t.ops.foldl step s).buffer.Typed 0 := by
  cases t with
  | insert texts =>
    rw [Typing.ops, List.cons_append, List.foldl_cons, List.foldl_append]
    have hbegin : (s.step .beginUserAction).buffer.Typed 1 := by
      rw [step_buffer]
      exact ht.beginUserAction
    have hinserts := typed_inserts texts (h.step .beginUserAction) hbegin
    rw [List.foldl_cons, List.foldl_nil, step_buffer]
    exact hinserts.endUserAction
  | undo => exact typed_undo h ht
  | redo => exact typed_redo h ht

/-- All actions of a typing session are interactive insertions. -/
theorem typed_run {text : List Char} (h : NulFree text) (typing : List Typing) :
    (run text (typing.flatMap Typing.ops)).buffer.Typed 0 := by
  have hkey : ∀ (typing : List Typing) (s : Session), s.Inv → s.buffer.Typed 0 →
      ((typing.flatMap Typing.ops).foldl step s).buffer.Typed 0 := by
    intro typing
    induction typing with
    | nil => exact fun s _ ht => ht
    | cons t typing ih =>
      intro s hinv ht
      rw [List.flatMap_cons, List.foldl_append]
      exact ih _ (hinv.foldl_step t.ops) (typed_typing t hinv ht)
  exact hkey typing _ (.start h) ⟨by simp [TypedStack, Session.start, TextBuffer.init],
    by simp [TypedStack, Session.start, TextBuffer.init], rfl, rfl⟩

/-! ## The cursor -/

theorem moveCursorTo_actionUndoOrRedo (b : TextBuffer) (addr : ActionPtr) (wasModified : Bool) :
    (b.actionUndoOrRedo addr wasModified).moveCursorTo = b.moveCursorTo := by
  unfold TextBuffer.actionUndoOrRedo TextBuffer.setModified
  split_ifs <;> rfl

theorem moveCursorTo_wrapperUndo (b : TextBuffer) {w : Wrapper} {a : InsertAction}
    (ha : w.action = .insert a) (hinteractive : a.interactive = true) :
    (b.wrapperUndo w).moveCursorTo = a.pos := by
  simp [TextBuffer.wrapperUndo, ha, TextBuffer.insertActionUndo, moveCursorTo_actionUndoOrRedo,
    TextBuffer.moveCursor, hinteractive]

theorem moveCursorTo_wrapperRedo (b : TextBuffer) {w : Wrapper} {a : InsertAction}
    (ha : w.action = .insert a) (hinteractive : a.interactive = true) :
    (b.wrapperRedo w).moveCursorTo = a.pos + a.length := by
  simp [TextBuffer.wrapperRedo, ha, TextBuffer.insertActionRedo, moveCursorTo_actionUndoOrRedo,
    TextBuffer.moveCursor, hinteractive]

/-- A text has as many bytes as characters when it is ASCII. -/
theorem length_encode_eq_iff (cs : List Char) :
    cs.length ≤ (Utf8.encode cs).length ∧
      ((Utf8.encode cs).length = cs.length ↔ ∀ c ∈ cs, c.utf8Size = 1) := by
  induction cs with
  | nil => simp
  | cons c cs ih =>
    have hpos := c.utf8Size_pos
    have happend : (Utf8.encode (c :: cs)).length = c.utf8Size + (Utf8.encode cs).length := by
      simp [Utf8.encode]
    rw [happend, List.length_cons, List.forall_mem_cons, ← ih.2]
    omega

/-- Undoing a group of insertions places the cursor at its oldest one. -/
theorem Inv.undoCursor (hinv : s.Inv) {group : ActionGroup} {rest : List ActionGroup}
    (htyped : TypedGroup group) (hus : s.buffer.undoStack = group :: rest) :
    ∃ first, group.getLast?.map Wrapper.action = some (.insert first) ∧
      first.pos ≤ s.buffer.undo.text.length ∧ s.buffer.undoCursor = some first.pos := by
  obtain ⟨x, y, c, m, M, place, hpath, -, heq, hy, -⟩ := hinv.undoing hus (List.prefix_refl _)
  obtain rfl := hy rfl
  have htext : s.buffer.undo.text = y := by
    simp only [TextBuffer.undo, hus, heq]
    rfl
  obtain ⟨pre, w, rfl⟩ := (List.eq_nil_or_concat' group).resolve_left htyped.1
  obtain ⟨first, hfirst, hinteractive⟩ := htyped.2 w (by simp)
  have hc : c = first.pos := by
    have hmove := congrArg TextBuffer.moveCursorTo heq
    rw [TextBuffer.actionGroupUndo, List.foldl_append, List.foldl_cons, List.foldl_nil,
      moveCursorTo_wrapperUndo _ hfirst hinteractive] at hmove
    exact hmove.symm
  have hpos : first.pos ≤ y.length := by
    rw [List.map_append] at hpath
    obtain ⟨mid, hlast, -⟩ := hpath.of_append
    obtain ⟨-, -, htakes⟩ := Wrapper.takes_core.1 hlast.takes_of_single
    rw [hfirst] at htakes
    obtain ⟨cs, htakes⟩ := htakes
    exact htakes.pos_le
  refine ⟨first, by simp [hfirst], htext ▸ hpos, ?_⟩
  simp only [TextBuffer.undoCursor, hus, heq, TextBuffer.afterUndoRedo, hc]
  rw [if_pos (Int.natCast_nonneg _), Int.toNat_natCast, min_eq_left hpos]

/-- Redoing a group of insertions places the cursor behind the newest one, by the length of its
text in bytes. -/
theorem Inv.redoCursor (hinv : s.Inv) {group : ActionGroup} {rest : List ActionGroup}
    (htyped : TypedGroup group) (hrs : s.buffer.redoStack = group :: rest) :
    ∃ last y cs, group.head?.map Wrapper.action = some (.insert last) ∧
      last.Takes y s.buffer.redo.text cs ∧
      s.buffer.redoCursor =
        some (min (last.pos + (Utf8.encode cs).length) s.buffer.redo.text.length) := by
  obtain ⟨x, y, c, m, M, place, hpath, -, heq, hy, -⟩ := hinv.redoing hrs (List.prefix_refl _)
  obtain rfl := hy rfl
  have htext : s.buffer.redo.text = y := by
    simp only [TextBuffer.redo, hrs, TextBuffer.actionGroupRedo, heq]
    rfl
  obtain ⟨w, tail, rfl⟩ := List.exists_cons_of_ne_nil htyped.1
  obtain ⟨last, hlast, hinteractive⟩ := htyped.2 w List.mem_cons_self
  obtain ⟨mid, cs, htakes⟩ : ∃ mid cs, last.Takes mid y cs := by
    rw [List.map_cons] at hpath
    cases hpath with
    | @cons _ _ _ mid _ _ htakes =>
      obtain ⟨-, -, htakes⟩ := Wrapper.takes_core.1 htakes
      rw [hlast] at htakes
      exact ⟨mid, htakes⟩
  have hc : c = ((last.pos + (Utf8.encode cs).length : ℕ) : ℤ) := by
    have hmove := congrArg TextBuffer.moveCursorTo heq
    rw [List.reverse_cons, List.foldl_append, List.foldl_cons, List.foldl_nil,
      moveCursorTo_wrapperRedo _ hlast hinteractive] at hmove
    rw [← htakes.text, ← htakes.length]
    push_cast
    exact hmove.symm
  refine ⟨last, mid, cs, by simp [hlast], htext ▸ htakes, ?_⟩
  simp only [TextBuffer.redoCursor, hrs, TextBuffer.actionGroupRedo, heq, TextBuffer.afterUndoRedo,
    hc, htext]
  rw [if_pos (Int.natCast_nonneg _), Int.toNat_natCast]

/-- After typing, and any undo and redo: undo places the cursor at the first action of the group it
takes back, and redo behind the text of the last one if that is ASCII or ends the buffer. -/
theorem typing_cursor {text : List Char} (h : NulFree text) (typing : List Typing) :
    let b := (run text (typing.flatMap Typing.ops)).buffer
    ∀ group rest, b.undoStack = group :: rest → ∃ first last y cs,
      group.getLast?.map Wrapper.action = some (.insert first) ∧
      group.head?.map Wrapper.action = some (.insert last) ∧
      first.pos ≤ b.undo.text.length ∧ b.undoCursor = some first.pos ∧
      b.undo.redo.text = b.text ∧ last.Takes y b.text cs ∧
      (b.undo.redoCursor = some (last.pos + cs.length) ↔
        (∀ c ∈ cs, c.utf8Size = 1) ∨ last.pos + cs.length = b.text.length) := by
  intro b group rest hus
  have hinv := run_inv h (typing.flatMap Typing.ops)
  have hgroup : TypedGroup group := (typed_run h typing).undoStack group (hus ▸ List.mem_cons_self)
  obtain ⟨first, hfirst, hpos, hundo⟩ := hinv.undoCursor hgroup hus
  obtain ⟨last, y, cs, hlast, htakes, hredo⟩ := hinv.undo.redoCursor hgroup (hinv.undo_stacks hus).2
  have htext : b.undo.redo.text = b.text := hinv.undo_redo_text hus
  refine ⟨first, last, y, cs, hfirst, hlast, hpos, hundo, htext, htext ▸ htakes, ?_⟩
  have hlen : last.pos + cs.length ≤ b.text.length := by
    have hp := htakes.pos_le
    rw [← htext, htakes.eq]
    simp only [List.length_append, List.length_take, List.length_drop]
    omega
  obtain ⟨hle, hascii⟩ := length_encode_eq_iff cs
  have hredo' : b.undo.redoCursor =
      some (min (last.pos + (Utf8.encode cs).length) b.text.length) := htext ▸ hredo
  rw [hredo', Option.some_inj, ← hascii]
  omega

/-- A typed letter behind another, taken back and redone. -/
theorem typing_cursor_two_letters :
    let b := (run [] [.beginUserAction, .insert 0 [97], .insert 1 [98], .endUserAction]).buffer
    ∀ group rest, b.undoStack = group :: rest → ∃ first last y cs,
      group.getLast?.map Wrapper.action = some (.insert first) ∧
      group.head?.map Wrapper.action = some (.insert last) ∧
      first.pos ≤ b.undo.text.length ∧ b.undoCursor = some first.pos ∧
      b.undo.redo.text = b.text ∧ last.Takes y b.text cs ∧
      (b.undo.redoCursor = some (last.pos + cs.length) ↔
        (∀ c ∈ cs, c.utf8Size = 1) ∨ last.pos + cs.length = b.text.length) :=
  @typing_cursor [] (by decide) [.insert [(0, [97]), (1, [98])]]

/-- The redo of a two-byte character before `ab` places the cursor behind the `a`. -/
theorem redoCursor_two_bytes :
    let b := (run ['a', 'b'] [.beginUserAction, .insert 0 [195, 169], .endUserAction]).buffer
    b.undo.redo.text = ['é', 'a', 'b'] ∧ b.undoCursor = some 0 ∧ b.undo.redoCursor = some 2 := by
  decide

end Session

end Medit
