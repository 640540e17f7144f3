import Mathlib.Order.MinMax
import Medit.TextBuffer.Actions

/-!
# What edits, undo and redo do to the buffer

An edit adds an action to the undo stack in one of three ways and forgets the redo stack. Undo and
redo change the text, the modified flag and `modifying_action` action by action and leave the
actions alone.
-/

namespace Medit

open History

/-- The groups of a stack, as what their actions record. -/
def cores (stack : List ActionGroup) : List (List Wrapper) := stack.map (·.map Wrapper.core)

@[simp] theorem cores_nil : cores [] = [] := rfl

@[simp] theorem cores_cons (g : ActionGroup) (stack : List ActionGroup) :
    cores (g :: stack) = g.map Wrapper.core :: cores stack := rfl

@[simp] theorem length_cores (stack : List ActionGroup) : (cores stack).length = stack.length :=
  List.length_map _

/-- `w` came to the groups `us` when `modifying_action` was `M`. -/
inductive Added (M : Option ActionPtr) (w : Wrapper) :
    List (List Wrapper) → List (List Wrapper) → Prop
  | group (us : List (List Wrapper)) : Added M w us ([w] :: us)
  | continued (g : List Wrapper) (us : List (List Wrapper)) : Added M w (g :: us) ((w :: g) :: us)
  | merged {old old' : Wrapper} {g : List Wrapper} {us : List (List Wrapper)} :
      M ≠ some w.addr → old'.addr = old.addr →
      (∀ x y z, old.Takes x y → w.Takes y z → old'.Takes x z) →
      Added M w ((old :: g) :: us) ((old' :: g) :: us)

namespace TextBuffer

variable {b : TextBuffer} {w : Wrapper} {x y : List Char}

/-! ## Adding an action -/

/-- A group with a merged or a new action. -/
theorem actionGroupAdd_spec (b : TextBuffer) (group : ActionGroup) (w : Wrapper)
    (us : List (List Wrapper)) :
    ∃ group', b.actionGroupAdd group w true = (b, group') ∧
      Added b.modifyingAction w.core (group.map Wrapper.core :: us)
        (group'.map Wrapper.core :: us) := by
  obtain ⟨hfalse, htrue⟩ := b.actionGroupMerge_spec group w
  unfold actionGroupAdd
  rcases hres : b.actionGroupMerge group w with ⟨b', group', merged⟩
  rw [hres] at hfalse htrue
  cases merged with
  | false =>
    obtain ⟨rfl, hcore⟩ := hfalse rfl
    refine ⟨w :: group', by simp, ?_⟩
    rw [← hcore]
    exact .continued _ _
  | true =>
    obtain ⟨hM, rfl, old, old', rest, rfl, rfl, haddr, htakes⟩ := htrue rfl
    refine ⟨old' :: rest, by simp, .merged (by simpa using hM) (by simpa using haddr) ?_⟩
    intro x y z hx hy
    exact Wrapper.takes_core.2 (htakes x y z (Wrapper.takes_core.1 hx) (Wrapper.takes_core.1 hy))

theorem pushAction_spec (b : TextBuffer) (w : Wrapper) :
    ∃ us, b.pushAction w = { b with undoStack := us } ∧
      Added b.modifyingAction w.core (cores b.undoStack) (cores us) := by
  unfold pushAction
  split
  · next hus =>
    refine ⟨[[w]], by simp [actionGroupAdd], ?_⟩
    rw [hus]
    exact .group _
  · next group rest hus =>
    rw [hus]
    split_ifs with hnew hcont
    · exact ⟨[w] :: group :: rest, by simp [actionGroupAdd], .group _⟩
    · obtain ⟨group', heq, hadded⟩ := b.actionGroupAdd_spec group w (cores rest)
      exact ⟨group' :: rest, by simp [heq], hadded⟩
    · obtain ⟨hfalse, htrue⟩ := b.actionGroupMerge_spec group w
      rcases hres : b.actionGroupMerge group w with ⟨b', group', merged⟩
      rw [hres] at hfalse htrue
      cases merged with
      | false =>
        obtain ⟨rfl, hcore⟩ := hfalse rfl
        refine ⟨[w] :: group' :: rest, by simp [actionGroupAdd, actionGroupMerge], ?_⟩
        rw [cores_cons, ← hcore]
        exact .group _
      | true =>
        obtain ⟨hM, rfl, old, old', rest', rfl, rfl, haddr, htakes⟩ := htrue rfl
        refine ⟨(old' :: rest') :: rest, by simp, .merged (by simpa using hM)
          (by simpa using haddr) ?_⟩
        intro x y z hx hy
        exact Wrapper.takes_core.2
          (htakes x y z (Wrapper.takes_core.1 hx) (Wrapper.takes_core.1 hy))

/-- A pointer into a freed stack is cleared. -/
theorem actionStackFree_eq (b : TextBuffer) (stack : List ActionGroup) :
    b.actionStackFree stack = { b with
      modifyingAction := b.modifyingAction.filter fun p => p ∉ stack.flatten.map Wrapper.addr } := by
  unfold actionStackFree
  induction stack.flatten generalizing b with
  | nil =>
    obtain ⟨_, _, _, _, _, M, _⟩ := b
    cases M <;> simp [Option.filter]
  | cons w ws ih =>
    rw [List.foldl_cons, ih]
    unfold editActionDestroy
    by_cases hM : b.modifyingAction = some w.addr
    · simp [hM, Option.filter]
    · cases hp : b.modifyingAction with
      | none => simp [Option.filter, hp]
      | some p =>
        have hne : p ≠ w.addr := fun h => hM (by rw [hp, h])
        simp [Option.filter, hp, hne]

/-- `modifying_action` once an action has been made. -/
def newModifyingAction (b : TextBuffer) : Option ActionPtr :=
  if b.modified then b.modifyingAction else some b.next

/-- The edit that leads from `b` to `b'` is recorded as `w`. -/
structure Edits (b b' : TextBuffer) (w : Wrapper) : Prop where
  addr : w.addr = b.next
  takes : w.Takes b.text b'.text
  added : Added b.newModifyingAction w.core (cores b.undoStack) (cores b'.undoStack)
  redoStack : b'.redoStack = []
  modified : b'.modified = true
  modifyingAction : b'.modifyingAction = b.newModifyingAction.filter fun p =>
    p ∉ b.redoStack.flatten.map Wrapper.addr
  frozen : b'.frozen = b.frozen
  next : b'.next = b.next + 1

@[simp] theorem setModified_true (b : TextBuffer) :
    b.setModified true = { b with modified := true } := by
  cases hm : b.modified with
  | false => simp [setModified, hm]
  | true =>
    obtain ⟨_, _⟩ := b
    simp_all [setModified]

theorem setModified_false (hM : b.modified = false → b.modifyingAction = none) :
    b.setModified false = { b with modified := false, modifyingAction := none } := by
  obtain ⟨_, m, _⟩ := b
  cases m <;> simp_all [setModified]

theorem addAction_spec (hf : b.frozen = 0) (w : Wrapper) :
    ∃ us dc, b.addAction w = { b with
        modifyingAction := b.modifyingAction.filter fun p =>
          p ∉ b.redoStack.flatten.map Wrapper.addr
        undoStack := us
        redoStack := []
        doContinue := dc
        newGroup := false } ∧
      Added b.modifyingAction w.core (cores b.undoStack) (cores us) := by
  obtain ⟨us, heq, hadded⟩ := b.pushAction_spec w
  refine ⟨us, if b.continueGroup ≠ 0 then true else b.doContinue, ?_, hadded⟩
  simp [addAction, hf, heq, actionStackFree_eq]

/-- Inserting text changes nothing or is recorded. -/
theorem insertText_spec (hf : b.frozen = 0) (hn : NulFree b.text) (pos : ℕ) (text : List UInt8) :
    b.insertText pos text = b ∨ ∃ w, Edits b (b.insertText pos text) w := by
  unfold insertText
  cases hv : utf8Validate text with
  | none => exact .inl rfl
  | some cs =>
    obtain ⟨rfl, hcs⟩ := utf8Validate_eq_some hv
    by_cases hnil : cs = []
    · simp [hnil]
    refine .inr ?_
    obtain ⟨us, dc, heq, hadded⟩ := addAction_spec (b := (b.insertActionNew (min pos b.text.length)
      (Utf8.encode cs)).1) hf (b.insertActionNew (min pos b.text.length) (Utf8.encode cs)).2
    simp only [if_neg hnil, if_pos hf, setModified_true, heq]
    refine ⟨(b.insertActionNew (min pos b.text.length) (Utf8.encode cs)).2, rfl,
      ⟨hn, ?_, cs, hnil, rfl, rfl, ?_, min_le_right _ _, rfl⟩, hadded, rfl, rfl, rfl, rfl, rfl⟩
    · exact ((hn.of_sublist (List.take_sublist _ _)).append hcs).append
        (hn.of_sublist (List.drop_sublist _ _))
    · simp [utf8Strlen]

/-- Valid text is put where it is asked for. -/
theorem text_insertText {cs : List Char} (hcs : NulFree cs) (pos : ℕ) :
    (b.insertText pos (Utf8.encode cs)).text = b.text.take pos ++ cs ++ b.text.drop pos := by
  have htake : b.text.take (min pos b.text.length) = b.text.take pos := by
    rw [← List.take_take, List.take_length]
  have hdrop : b.text.drop (min pos b.text.length) = b.text.drop pos := by
    rcases Nat.le_total pos b.text.length with hle | hle
    · rw [min_eq_left hle]
    · rw [min_eq_right hle, List.drop_length, List.drop_eq_nil_of_le hle]
  unfold insertText
  rw [utf8Validate_encode hcs]
  dsimp only
  split_ifs with hnil hf
  · rw [hnil, List.append_nil, List.take_append_drop]
  · obtain ⟨us, dc, heq, -⟩ := addAction_spec (b := (b.insertActionNew (min pos b.text.length)
      (Utf8.encode cs)).1) hf (b.insertActionNew (min pos b.text.length) (Utf8.encode cs)).2
    rw [heq, setModified_true, ← htake, ← hdrop]
    rfl
  · rw [setModified_true, ← htake, ← hdrop]

/-- Deleting text changes nothing or is recorded. -/
theorem deleteRange_spec (hf : b.frozen = 0) (hn : NulFree b.text) (start stop cursor : ℕ) :
    b.deleteRange start stop cursor = b ∨ ∃ w, Edits b (b.deleteRange start stop cursor) w := by
  unfold deleteRange
  by_cases heq : min start b.text.length = min stop b.text.length
  · simp [heq]
  refine .inr ?_
  simp only [if_neg heq, if_pos hf, setModified_true]
  set s := min (min start b.text.length) (min stop b.text.length) with hs
  set e := max (min start b.text.length) (min stop b.text.length) with he
  obtain ⟨us, dc, hadd, hadded⟩ := addAction_spec (b := (b.deleteActionNew s e cursor).1) hf
    (b.deleteActionNew s e cursor).2
  rw [hadd]
  refine ⟨(b.deleteActionNew s e cursor).2, rfl, ⟨hn, ?_, ⟨?_, ?_, rfl, rfl⟩⟩, hadded, rfl, rfl, rfl,
    rfl, rfl⟩
  · exact (hn.of_sublist (List.take_sublist _ _)).append (hn.of_sublist (List.drop_sublist _ _))
  · exact min_lt_max.2 heq
  · exact max_le (min_le_right _ _) (min_le_right _ _)

/-! ## Undoing and redoing an action -/

theorem insertText_frozen {cs : List Char} {pos : ℕ} (hf : b.frozen ≠ 0) (hcs : cs ≠ [])
    (hn : NulFree cs) (hpos : pos ≤ b.text.length) :
    b.insertText pos (Utf8.encode cs) =
      { b with text := b.text.take pos ++ cs ++ b.text.drop pos, modified := true } := by
  simp [insertText, utf8Validate_encode hn, hcs, hf, min_eq_left hpos]

theorem deleteRange_frozen {start stop cursor : ℕ} (hf : b.frozen ≠ 0) (hlt : start < stop)
    (hle : stop ≤ b.text.length) :
    b.deleteRange start stop cursor =
      { b with text := b.text.take start ++ b.text.drop stop, modified := true } := by
  have hle' : start ≤ b.text.length := hlt.le.trans hle
  simp [deleteRange, min_eq_left hle, min_eq_left hle', hlt.ne, hf, hlt.le]

/-- What an undone or redone action leaves of the flag and the pointer. -/
theorem actionUndoOrRedo_eq (hM : b.modified = false → b.modifyingAction = none) (text : List Char)
    (c : ℤ) (addr : ActionPtr) :
    { b with text := text, modified := true, moveCursorTo := c }.actionUndoOrRedo addr b.modified =
      { b with
        text := text
        modified := (settle b.modified b.modifyingAction addr).1
        modifyingAction := (settle b.modified b.modifyingAction addr).2
        moveCursorTo := c } := by
  unfold actionUndoOrRedo settle
  cases hm : b.modified with
  | false => simp [hM hm]
  | true =>
    by_cases hp : b.modifyingAction = some addr
    · simp [hp, setModified]
    · simp [hp]

theorem moveCursor_eq (b : TextBuffer) (interactive : Bool) (pos : ℕ) :
    ∃ c, b.moveCursor interactive pos = { b with moveCursorTo := c } := by
  unfold moveCursor
  split_ifs
  · exact ⟨_, rfl⟩
  · exact ⟨b.moveCursorTo, rfl⟩

theorem wrapperUndo_spec (hf : b.frozen ≠ 0) (h : w.Takes x b.text)
    (hM : b.modified = false → b.modifyingAction = none) :
    ∃ c, b.wrapperUndo w = { b with
      text := x
      modified := (settle b.modified b.modifyingAction w.addr).1
      modifyingAction := (settle b.modified b.modifyingAction w.addr).2
      moveCursorTo := c } := by
  obtain ⟨hx0, hy0, h⟩ := h
  unfold wrapperUndo
  cases hw : w.action with
  | insert a =>
    rw [hw] at h
    obtain ⟨cs, h⟩ := h
    have hpos : 0 < cs.length := List.length_pos_of_ne_nil h.ne_nil
    have hle : a.pos + a.chars ≤ b.text.length := by
      rw [h.eq, h.chars]
      simp only [List.length_append, List.length_take, List.length_drop]
      have := h.pos_le
      omega
    simp only [insertActionUndo]
    rw [deleteRange_frozen hf (by have := h.chars; omega) hle, h.before]
    obtain ⟨c, hc⟩ := moveCursor_eq { b with text := x, modified := true } a.interactive a.pos
    rw [hc]
    exact ⟨c, actionUndoOrRedo_eq hM x c w.addr⟩
  | delete a =>
    rw [hw] at h
    have hcs : NulFree ((x.take a.stop).drop a.start) :=
      hx0.of_sublist ((List.drop_sublist _ _).trans (List.take_sublist _ _))
    have hne : (x.take a.stop).drop a.start ≠ [] := by
      refine List.ne_nil_of_length_pos ?_
      rw [List.length_drop, List.length_take_of_le h.stop_le]
      have := h.lt
      omega
    have hlen : (x.take a.start).length = a.start :=
      List.length_take_of_le (h.lt.le.trans h.stop_le)
    have hle : a.start ≤ b.text.length := by
      rw [h.eq, List.length_append, hlen]
      exact Nat.le_add_right _ _
    simp only [deleteActionUndo]
    rw [h.text, cString_encode hcs, insertText_frozen hf hne hcs hle, h.before]
    obtain ⟨c, hc⟩ := moveCursor_eq { b with text := x, modified := true } a.interactive
      (if a.forward then a.start else a.stop)
    rw [hc]
    exact ⟨c, actionUndoOrRedo_eq hM x c w.addr⟩

theorem wrapperRedo_spec (hf : b.frozen ≠ 0) (h : w.Takes b.text y)
    (hM : b.modified = false → b.modifyingAction = none) :
    ∃ c, b.wrapperRedo w = { b with
      text := y
      modified := (settle b.modified b.modifyingAction w.addr).1
      modifyingAction := (settle b.modified b.modifyingAction w.addr).2
      moveCursorTo := c } := by
  obtain ⟨hx0, hy0, h⟩ := h
  unfold wrapperRedo
  cases hw : w.action with
  | insert a =>
    rw [hw] at h
    obtain ⟨cs, h⟩ := h
    have hcs : NulFree cs := fun hmem => hy0 (by rw [h.eq]; simp [hmem])
    simp only [insertActionRedo]
    rw [h.length, List.take_length, h.text, insertText_frozen hf h.ne_nil hcs h.pos_le, ← h.eq]
    obtain ⟨c, hc⟩ := moveCursor_eq { b with text := y, modified := true } a.interactive
      (a.pos + (Utf8.encode cs).length)
    rw [hc]
    exact ⟨c, actionUndoOrRedo_eq hM y c w.addr⟩
  | delete a =>
    rw [hw] at h
    simp only [deleteActionRedo]
    rw [deleteRange_frozen hf h.lt h.stop_le, ← h.eq]
    obtain ⟨c, hc⟩ := moveCursor_eq { b with text := y, modified := true } a.interactive a.start
    rw [hc]
    exact ⟨c, actionUndoOrRedo_eq hM y c w.addr⟩

end TextBuffer

end Medit
