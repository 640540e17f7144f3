import Mathlib.Algebra.Group.Nat.Defs
import Mathlib.Algebra.GroupWithZero.Nat
import Mathlib.Algebra.Ring.Int.Defs
import Mathlib.Logic.Function.Iterate
import Medit.TextBuffer.Stack

/-!
# Every run of edits, undo, redo and saves

A session records, besides the buffer, the texts at the boundaries between groups when the edits
that made them were done, and the text and the boundary of the last save.

## Main results

* `Session.Inv` — what holds in every session, `Session.run_inv`.
* `Session.text_at_boundary` — undo and redo lead to the recorded texts.
* `Session.modified_saved` — the modified flag tells whether the text is the saved one.
-/

namespace Medit

open History

/-- What happens to a buffer. -/
inductive Op where
  | insert (pos : ℕ) (text : List UInt8)
  | delete (start stop cursor : ℕ)
  | undo
  | redo
  | save
  | newGroup
  | startGroup
  | endGroup
  | beginUserAction
  | endUserAction
  | beginNonInteractiveAction
  | endNonInteractiveAction

def Op.run (b : TextBuffer) : Op → TextBuffer
  | insert pos text => b.insertText pos text
  | delete start stop cursor => b.deleteRange start stop cursor
  | undo => b.undo
  | redo => b.redo
  | save => b.setModified false
  | newGroup => b.setNewGroup
  | startGroup => b.startGroup
  | endGroup => b.endGroup
  | beginUserAction => b.beginUserAction
  | endUserAction => b.endUserAction
  | beginNonInteractiveAction => b.beginNonInteractiveAction
  | endNonInteractiveAction => b.endNonInteractiveAction

/-- A buffer with what happened to it. -/
structure Session where
  buffer : TextBuffer
  /-- The texts between the groups of both stacks, oldest first, as edits made them. -/
  bounds : List (List Char)
  /-- The text at the last save. -/
  saved : List Char
  /-- The number of groups before the boundary at which the last save was, until an edit
  discards it. -/
  savedAt : Option ℕ

namespace Session

/-- An edit makes a new last boundary; those after it are gone. -/
def edit (s : Session) (b : TextBuffer) : Session :=
  if b.text = s.buffer.text then { s with buffer := b }
  else
    { buffer := b
      bounds := s.bounds.take b.undoStack.length ++ [b.text]
      saved := s.saved
      savedAt := s.savedAt.filter fun n => n < b.undoStack.length }

def step (s : Session) (op : Op) : Session :=
  match op with
  | .insert _ _ => s.edit (op.run s.buffer)
  | .delete _ _ _ => s.edit (op.run s.buffer)
  | .save =>
    { s with
      buffer := op.run s.buffer
      saved := s.buffer.text
      savedAt := some s.buffer.undoStack.length }
  | _ => { s with buffer := op.run s.buffer }

/-- A session with a text that has just been loaded. -/
def start (text : List Char) : Session := ⟨.init text, [text], text, some 0⟩

def run (text : List Char) (ops : List Op) : Session := ops.foldl step (start text)

end Session

namespace TextBuffer

/-- The actions that were applied, newest first. -/
def past (b : TextBuffer) : List Wrapper := (cores b.undoStack).flatten

/-- The actions that were taken back, next first. -/
def future (b : TextBuffer) : List Wrapper := (cores b.redoStack).flatMap List.reverse

/-- The groups of both stacks, oldest first. -/
def groups (b : TextBuffer) : List (List Wrapper) := (cores b.undoStack).reverse ++ cores b.redoStack

/-- The number of actions in the first `n` groups. -/
def countBefore (b : TextBuffer) (n : ℕ) : ℕ := ((b.groups.take n).map List.length).sum

theorem length_past (b : TextBuffer) : b.past.length = b.countBefore b.undoStack.length := by
  have htake : b.groups.take b.undoStack.length = (cores b.undoStack).reverse := by
    rw [groups, List.take_left' (by simp)]
  rw [past, countBefore, htake, List.map_reverse, List.sum_reverse, List.length_flatten]

theorem countBefore_mono (b : TextBuffer) {m n : ℕ} (h : m ≤ n) :
    b.countBefore m ≤ b.countBefore n := by
  unfold countBefore
  rw [← List.take_append_drop m (b.groups.take n), List.take_take, min_eq_left h, List.map_append,
    List.sum_append]
  exact Nat.le_add_right _ _

theorem mem_future {b : TextBuffer} {p : ActionPtr} :
    p ∈ b.future.map Wrapper.addr ↔ p ∈ b.redoStack.flatten.map Wrapper.addr := by
  simp only [future, cores, List.mem_map, List.mem_flatMap, List.mem_flatten]
  constructor
  · rintro ⟨_, ⟨_, ⟨g, hg, rfl⟩, hw⟩, rfl⟩
    obtain ⟨w, hwg, rfl⟩ := List.mem_map.1 (List.mem_reverse.1 hw)
    exact ⟨w, ⟨g, hg, hwg⟩, w.core_addr.symm⟩
  · rintro ⟨w, ⟨g, hg, hw⟩, rfl⟩
    exact ⟨w.core, ⟨_, ⟨g, hg, rfl⟩, List.mem_reverse.2 (List.mem_map_of_mem hw)⟩, w.core_addr⟩

end TextBuffer

/-- What holds in every session. -/
structure Session.Inv (s : Session) : Prop where
  frozen : s.buffer.frozen = 0
  nulFree : NulFree s.buffer.text
  timeline : Timeline Wrapper.Takes (cores s.buffer.undoStack) (cores s.buffer.redoStack)
    s.buffer.text s.bounds
  fresh : ∀ w ∈ s.buffer.past ++ s.buffer.future, w.addr < s.buffer.next
  nodup : ((s.buffer.past ++ s.buffer.future).map Wrapper.addr).Nodup
  saved : ∃ place, SavedAt Wrapper.Takes Wrapper.addr s.buffer.past s.buffer.future s.buffer.text
      s.saved s.buffer.modified s.buffer.modifyingAction place ∧
    ∀ n, s.savedAt = some n → place = some (s.buffer.countBefore n)

namespace Session.Inv

variable {s : Session} {b : TextBuffer} {w : Wrapper}

theorem start {text : List Char} (h : NulFree text) : (Session.start text).Inv := by
  refine ⟨rfl, h, .start text, ?_, ?_, some 0, .here rfl, ?_⟩
  · simp [Session.start, TextBuffer.past, TextBuffer.future, TextBuffer.init]
  · simp [Session.start, TextBuffer.past, TextBuffer.future, TextBuffer.init]
  · intro n hn
    obtain rfl : 0 = n := by simpa [Session.start] using hn
    rfl

/-- A change of the fields that only decide how the next action is added. -/
theorem of_eq (h : s.Inv) (hb : b = { s.buffer with
    userActionCount := b.userActionCount
    nonInteractive := b.nonInteractive
    moveCursorTo := b.moveCursorTo
    continueGroup := b.continueGroup
    doContinue := b.doContinue
    newGroup := b.newGroup }) : { s with buffer := b }.Inv := by
  rw [hb]
  exact ⟨h.frozen, h.nulFree, h.timeline, h.fresh, h.nodup, h.saved⟩

theorem save (h : s.Inv) : (s.step .save).Inv := by
  obtain ⟨place, hsaved, hplace⟩ := h.saved
  simp only [step, Op.run, TextBuffer.setModified_false hsaved.pointer_eq_none]
  refine ⟨h.frozen, h.nulFree, h.timeline, h.fresh, h.nodup, some s.buffer.past.length, .here rfl,
    fun n hn => ?_⟩
  obtain rfl : s.buffer.undoStack.length = n := by simpa using hn
  exact congrArg some s.buffer.length_past

/-! ## Edits -/

/-- What is left to show of an edit. -/
theorem of_edits (h : s.Inv) (hedits : s.buffer.Edits b w) {place : Option ℕ}
    (htimeline : Timeline Wrapper.Takes (cores b.undoStack) [] b.text
      (s.bounds.take b.undoStack.length ++ [b.text]))
    (hfresh : ∀ v ∈ b.past, v.addr < b.next) (hnodup : (b.past.map Wrapper.addr).Nodup)
    (hsaved : SavedAt Wrapper.Takes Wrapper.addr b.past [] b.text s.saved true b.modifyingAction
      place)
    (hplace : ∀ n, s.savedAt = some n → n < b.undoStack.length → place = some (b.countBefore n)) :
    (s.edit b).Inv := by
  have hfuture : b.future = [] := by simp [TextBuffer.future, hedits.redoStack]
  rw [edit, if_neg hedits.takes.ne]
  refine ⟨hedits.frozen.trans h.frozen, hedits.takes.2.1, ?_, ?_, ?_, place, ?_, fun n hn => ?_⟩
  · simpa [hedits.redoStack] using htimeline
  · simpa [hfuture] using hfresh
  · simpa [hfuture] using hnodup
  · simpa [hfuture, hedits.modified] using hsaved
  · obtain ⟨hn, hlt⟩ := Option.filter_eq_some_iff.1 hn
    exact hplace n hn (by simpa using hlt)

theorem edit (h : s.Inv) (hedits : s.buffer.Edits b w) : (s.edit b).Inv := by
  obtain ⟨place, hsaved, hplace⟩ := h.saved
  have htakes : w.core.Takes s.buffer.text b.text := Wrapper.takes_core.2 hedits.takes
  have haddr : w.core.addr = s.buffer.next := w.core_addr.trans hedits.addr
  have hfuture : b.future = [] := by simp [TextBuffer.future, hedits.redoStack]
  have hnotin : s.buffer.next ∉ (s.buffer.past ++ s.buffer.future).map Wrapper.addr := by
    intro hmem
    obtain ⟨v, hv, hva⟩ := List.mem_map.1 hmem
    exact (h.fresh v hv).ne hva
  have hfresh' : ∀ v ∈ s.buffer.past, v.addr < b.next := fun v hv => by
    rw [hedits.next]
    exact Nat.lt_succ_of_lt (h.fresh v (List.mem_append.2 (.inl hv)))
  have hnodup' : (s.buffer.past.map Wrapper.addr).Nodup := by
    have := h.nodup
    rw [List.map_append] at this
    exact this.of_append_left
  have hM : b.modifyingAction = if s.buffer.modified
      then s.buffer.modifyingAction.filter fun p => p ∉ s.buffer.future.map Wrapper.addr
      else some w.core.addr := by
    have hcongr : (fun p => decide (p ∉ s.buffer.redoStack.flatten.map Wrapper.addr)) =
        fun p => decide (p ∉ s.buffer.future.map Wrapper.addr) := by
      funext p
      rw [decide_eq_decide]
      exact not_congr TextBuffer.mem_future.symm
    rw [hedits.modifyingAction, hcongr, haddr, TextBuffer.newModifyingAction]
    split_ifs with hm
    · rfl
    · have hno : s.buffer.next ∉ s.buffer.future.map Wrapper.addr := fun hmem => hnotin (by
        rw [List.map_append]
        exact List.mem_append.2 (.inr hmem))
      simp only [Option.filter, hno, not_false_eq_true, decide_true, if_true]
  -- boundaries below a common part of the stacks do not move
  have hcount {t : List (List Wrapper)} {p q : List (List Wrapper)}
      (hp : b.groups = t.reverse ++ p) (hq : s.buffer.groups = t.reverse ++ q) {n : ℕ}
      (hn : n ≤ t.length) : b.countBefore n = s.buffer.countBefore n ∧
        s.buffer.countBefore n ≤ t.flatten.length := by
    have htake (r : List (List Wrapper)) : (t.reverse ++ r).take n = t.reverse.take n :=
      List.take_append_of_le_length (by simpa using hn)
    have hle := s.buffer.countBefore_mono hn
    have hall : s.buffer.countBefore t.length = t.flatten.length := by
      rw [TextBuffer.countBefore, hq, List.take_left' (by simp), List.map_reverse, List.sum_reverse,
        List.length_flatten]
    rw [TextBuffer.countBefore, TextBuffer.countBefore, hp, hq, htake, htake]
    rw [TextBuffer.countBefore, hq, htake, hall] at hle
    exact ⟨rfl, hle⟩
  have hred : cores b.redoStack = [] := by rw [hedits.redoStack]; rfl
  have hadded := hedits.added
  generalize hus : cores s.buffer.undoStack = us at hadded
  generalize hvs : cores b.undoStack = vs at hadded
  have hpast : s.buffer.past = us.flatten := by rw [TextBuffer.past, hus]
  have hpast' : b.past = vs.flatten := by rw [TextBuffer.past, hvs]
  have hlen : us.length = s.buffer.undoStack.length := by rw [← hus, length_cores]
  have hlen' : vs.length = b.undoStack.length := by rw [← hvs, length_cores]
  have htl := h.timeline
  rw [hus] at htl
  have hg : s.buffer.groups = us.reverse ++ cores s.buffer.redoStack := by
    rw [TextBuffer.groups, hus]
  have hg' : b.groups = vs.reverse := by rw [TextBuffer.groups, hvs, hred, List.append_nil]
  have hpush := hsaved.push htakes h.nodup
  rw [← hM] at hpush
  -- a new action comes before all others
  have hnew (hvs' : vs.flatten = w.core :: us.flatten) {t : List (List Wrapper)}
      {p q : List (List Wrapper)} (hp : b.groups = t.reverse ++ p)
      (hq : s.buffer.groups = t.reverse ++ q) (hk : vs.length = t.length + 1)
      (htl' : Timeline Wrapper.Takes vs [] b.text (s.bounds.take vs.length ++ [b.text]))
      (hle : t.flatten.length ≤ us.flatten.length) : (s.edit b).Inv := by
    have hb : b.past = w.core :: s.buffer.past := by rw [hpast', hvs', hpast]
    refine h.of_edits hedits (hvs ▸ hlen' ▸ htl') ?_ ?_ (hb ▸ hpush) fun n hn hlt => ?_
    · rw [hb]
      refine fun v hv => (List.mem_cons.1 hv).elim (fun hv => ?_) (hfresh' v)
      rw [hv, haddr, hedits.next]
      exact Nat.lt_succ_self _
    · rw [hb, List.map_cons, List.nodup_cons, haddr]
      refine ⟨fun hmem => hnotin ?_, hnodup'⟩
      rw [List.map_append]
      exact List.mem_append.2 (.inl hmem)
    · obtain ⟨heq, hle'⟩ := hcount hp hq (n := n) (by omega)
      rw [hplace n hn, heq]
      exact filter_le_of_le (by rw [hpast]; omega)
  cases hadded with
  | group =>
    refine hnew rfl (t := us) (p := [[w.core]]) (by simp [hg']) hg rfl ?_ le_rfl
    exact htl.push (.single htakes)
  | continued g t =>
    refine hnew rfl (t := t) (p := [w.core :: g]) (q := g :: cores s.buffer.redoStack)
      (by simp [hg']) (by simp [hg]) rfl ?_ (by simp)
    exact htl.extend fun x hx => .cons hx htakes
  | @merged old old' g t hne hold hmerge =>
    have hmod : s.buffer.modified = true := by
      by_contra hm
      refine hne ?_
      rw [TextBuffer.newModifyingAction, if_neg hm, haddr]
    have hp : s.buffer.past = old :: (g ++ t.flatten) := by simp [hpast]
    have hb : b.past = old' :: (g ++ t.flatten) := by simp [hpast']
    rw [if_pos hmod] at hM
    have hnd := h.nodup
    rw [hp] at hnd hsaved hfresh' hnodup'
    rw [hmod] at hsaved
    have hreplace := hsaved.replace hold (fun y hy => hmerge y _ _ hy htakes) hnd
    rw [← hM] at hreplace
    refine h.of_edits hedits ?_ ?_ ?_ (hb ▸ hreplace) fun n hn hlt => ?_
    · rw [hvs, ← hlen']
      refine htl.extend fun x hx => ?_
      cases hx with
      | cons hx ht => exact .cons hx (hmerge _ _ _ ht htakes)
    · rw [hb]
      refine fun v hv => (List.mem_cons.1 hv).elim (fun hv => ?_) fun hv =>
        hfresh' v (List.mem_cons_of_mem _ hv)
      rw [hv, hold]
      exact hfresh' old List.mem_cons_self
    · rwa [hb, List.map_cons, hold, ← List.map_cons]
    · obtain ⟨heq, hle⟩ := hcount (t := t) (p := [old' :: g])
        (q := (old :: g) :: cores s.buffer.redoStack) (by simp [hg']) (by simp [hg]) (n := n)
        (by rw [← hlen'] at hlt; exact Nat.le_of_lt_succ hlt)
      rw [hplace n hn, heq]
      exact filter_le_of_le (by rw [List.length_append]; omega)

end Session.Inv

/-! ## Undo and redo -/

namespace TextBuffer

variable {b : TextBuffer} {x y saved : List Char} {past future : List Wrapper} {place : Option ℕ}

theorem nulFree_of_path {as : List Wrapper} (h : History.Path Wrapper.Takes as x y) :
    NulFree x ↔ NulFree y := by
  induction h with
  | nil => rfl
  | cons _ ht ih => exact ih.trans ⟨fun _ => ht.2.1, fun _ => ht.1⟩

/-- Undoing actions one after another. -/
theorem foldl_wrapperUndo (pre : ActionGroup) (hf : b.frozen ≠ 0)
    (hpath : History.Path Wrapper.Takes (pre.map Wrapper.core) x b.text)
    (hs : SavedAt Wrapper.Takes Wrapper.addr (pre.map Wrapper.core ++ past) future b.text saved
      b.modified b.modifyingAction place)
    (hnd : ((pre.map Wrapper.core ++ past ++ future).map Wrapper.addr).Nodup) :
    ∃ c m M, pre.foldl wrapperUndo b =
        { b with text := x, modified := m, modifyingAction := M, moveCursorTo := c } ∧
      SavedAt Wrapper.Takes Wrapper.addr past ((pre.map Wrapper.core).reverse ++ future) x saved m M
        place := by
  induction pre generalizing b future with
  | nil =>
    cases hpath with
    | nil => exact ⟨_, _, _, rfl, hs⟩
  | cons w pre ih =>
    cases hpath with
    | @cons _ _ _ y _ hpath ht =>
      obtain ⟨c, heq⟩ := wrapperUndo_spec hf (Wrapper.takes_core.1 ht) hs.pointer_eq_none
      have hs' := hs.undo Wrapper.Takes.left_unique ht hnd
      rw [Wrapper.core_addr] at hs'
      have hnd' : ((pre.map Wrapper.core ++ past ++ w.core :: future).map Wrapper.addr).Nodup := by
        rw [List.Perm.nodup_iff (List.Perm.map _ List.perm_middle)]
        exact hnd
      obtain ⟨c', m, M, heq', hs''⟩ := ih (b := b.wrapperUndo w) (by rw [heq]; exact hf)
        (by rw [heq]; exact hpath) (by rw [heq]; exact hs') hnd'
      refine ⟨c', m, M, ?_, by simpa using hs''⟩
      rw [List.foldl_cons, heq', heq]

/-- Redoing actions one after another. -/
theorem foldl_wrapperRedo (pre : ActionGroup) (hf : b.frozen ≠ 0)
    (hpath : History.Path Wrapper.Takes (pre.map Wrapper.core).reverse b.text y)
    (hs : SavedAt Wrapper.Takes Wrapper.addr past (pre.map Wrapper.core ++ future) b.text saved
      b.modified b.modifyingAction place)
    (hnd : ((past ++ (pre.map Wrapper.core ++ future)).map Wrapper.addr).Nodup) :
    ∃ c m M, pre.foldl wrapperRedo b =
        { b with text := y, modified := m, modifyingAction := M, moveCursorTo := c } ∧
      SavedAt Wrapper.Takes Wrapper.addr ((pre.map Wrapper.core).reverse ++ past) future y saved m M
        place := by
  induction pre generalizing b past with
  | nil =>
    cases hpath with
    | nil => exact ⟨_, _, _, rfl, hs⟩
  | cons w pre ih =>
    rw [List.map_cons, List.reverse_cons] at hpath
    obtain ⟨z, hfirst, hpath⟩ := hpath.of_append
    have ht := hfirst.takes_of_single
    obtain ⟨c, heq⟩ := wrapperRedo_spec hf (Wrapper.takes_core.1 ht) hs.pointer_eq_none
    have hs' := hs.redo Wrapper.Takes.right_unique ht hnd
    rw [Wrapper.core_addr] at hs'
    have hnd' : ((w.core :: past ++ (pre.map Wrapper.core ++ future)).map Wrapper.addr).Nodup := by
      exact (List.Perm.nodup_iff (List.Perm.map _ List.perm_middle)).1 hnd
    obtain ⟨c', m, M, heq', hs''⟩ := ih (b := b.wrapperRedo w) (by rw [heq]; exact hf)
      (by rw [heq]; exact hpath) (by rw [heq]; exact hs') hnd'
    refine ⟨c', m, M, ?_, by simpa using hs''⟩
    rw [List.foldl_cons, heq', heq]

end TextBuffer

namespace Session.Inv

variable {s : Session} {group : ActionGroup} {rest : List ActionGroup}

/-- The buffer while a group is undone. -/
theorem undoing (h : s.Inv) (hus : s.buffer.undoStack = group :: rest) {pre : ActionGroup}
    (hpre : pre <+: group) :
    ∃ x y c m M place, History.Path Wrapper.Takes (group.map Wrapper.core) x s.buffer.text ∧
      Timeline Wrapper.Takes (cores rest) (group.map Wrapper.core :: cores s.buffer.redoStack) x
        s.bounds ∧
      (s.buffer.beginUndo group rest).actionGroupUndo pre = { s.buffer.beginUndo group rest with
        text := y, modified := m, modifyingAction := M, moveCursorTo := c } ∧
      (pre = group → y = x) ∧
      SavedAt Wrapper.Takes Wrapper.addr ((group.drop pre.length).map Wrapper.core ++
        (cores rest).flatten) ((pre.map Wrapper.core).reverse ++ s.buffer.future) y s.saved m M place ∧
      ∀ n, s.savedAt = some n → place = some (s.buffer.countBefore n) := by
  obtain ⟨place, hsaved, hplace⟩ := h.saved
  obtain ⟨post, rfl⟩ := hpre
  have htl := h.timeline
  rw [hus, cores_cons] at htl
  obtain ⟨x, hpath, htl⟩ := htl.undo
  have hsplit := hpath
  rw [List.map_append] at hsplit
  obtain ⟨y, hpost, hpre⟩ := hsplit.of_append
  have hpast : s.buffer.past = pre.map Wrapper.core ++ (post.map Wrapper.core ++
      (cores rest).flatten) := by simp [TextBuffer.past, hus]
  have hnd := h.nodup
  rw [hpast] at hnd hsaved
  obtain ⟨c, m, M, heq, hs⟩ := TextBuffer.foldl_wrapperUndo
    (b := s.buffer.beginUndo (pre ++ post) rest) pre (Nat.succ_ne_zero _) hpre hsaved hnd
  refine ⟨x, y, c, m, M, place, hpath, htl, heq, fun heq' => ?_, by simpa using hs, hplace⟩
  have hnil : post = [] := by simpa using heq'.symm
  subst hnil
  cases hpost with
  | nil => rfl

/-- The buffer while a group is redone. -/
theorem redoing (h : s.Inv) (hrs : s.buffer.redoStack = group :: rest) {pre : ActionGroup}
    (hpre : pre <+: group.reverse) :
    ∃ x y c m M place, History.Path Wrapper.Takes (group.map Wrapper.core) s.buffer.text x ∧
      Timeline Wrapper.Takes (group.map Wrapper.core :: cores s.buffer.undoStack) (cores rest) x
        s.bounds ∧
      pre.foldl TextBuffer.wrapperRedo (s.buffer.beginRedo group rest) =
        { s.buffer.beginRedo group rest with
          text := y, modified := m, modifyingAction := M, moveCursorTo := c } ∧
      (pre = group.reverse → y = x) ∧
      SavedAt Wrapper.Takes Wrapper.addr ((pre.map Wrapper.core).reverse ++ s.buffer.past)
        ((group.reverse.drop pre.length).map Wrapper.core ++ (cores rest).flatMap List.reverse) y
        s.saved m M place ∧
      ∀ n, s.savedAt = some n → place = some (s.buffer.countBefore n) := by
  obtain ⟨place, hsaved, hplace⟩ := h.saved
  obtain ⟨post, hgroup⟩ := hpre
  have htl := h.timeline
  rw [hrs, cores_cons] at htl
  obtain ⟨x, hpath, htl⟩ := htl.redo
  have hsplit : History.Path Wrapper.Takes ((post.map Wrapper.core).reverse ++
      (pre.map Wrapper.core).reverse) s.buffer.text x := by
    rw [← List.reverse_append, ← List.map_append, hgroup]
    simpa using hpath
  obtain ⟨y, hpre, hpost⟩ := hsplit.of_append
  have hfuture : s.buffer.future = pre.map Wrapper.core ++ (post.map Wrapper.core ++
      (cores rest).flatMap List.reverse) := by
    rw [← List.append_assoc, ← List.map_append, hgroup]
    simp [TextBuffer.future, hrs]
  have hnd := h.nodup
  rw [hfuture] at hnd hsaved
  obtain ⟨c, m, M, heq, hs⟩ := TextBuffer.foldl_wrapperRedo (b := s.buffer.beginRedo group rest) pre
    (Nat.succ_ne_zero _) hpre hsaved hnd
  refine ⟨x, y, c, m, M, place, hpath, htl, heq, fun heq' => ?_, ?_, hplace⟩
  · have hnil : post = [] := by simpa [heq'] using hgroup
    subst hnil
    cases hpost with
    | nil => rfl
  · rw [← hgroup, List.drop_left]
    exact hs

/-- Undo and redo only change the place among the actions. -/
theorem of_moved (h : s.Inv) (b : TextBuffer) (place : Option ℕ) (hfrozen : b.frozen = 0)
    (hnul : NulFree b.text)
    (htl : Timeline Wrapper.Takes (cores b.undoStack) (cores b.redoStack) b.text s.bounds)
    (hperm : (b.past ++ b.future).Perm (s.buffer.past ++ s.buffer.future))
    (hnext : b.next = s.buffer.next) (hgroups : b.groups = s.buffer.groups)
    (hsaved : SavedAt Wrapper.Takes Wrapper.addr b.past b.future b.text s.saved b.modified
      b.modifyingAction place)
    (hplace : ∀ n, s.savedAt = some n → place = some (s.buffer.countBefore n)) :
    { s with buffer := b }.Inv := by
  refine ⟨hfrozen, hnul, htl, fun w hw => ?_, (hperm.map Wrapper.addr).nodup_iff.2 h.nodup, place,
    hsaved, fun n hn => ?_⟩
  · rw [hnext]
    exact h.fresh w (hperm.mem_iff.1 hw)
  · rw [hplace n hn, TextBuffer.countBefore, TextBuffer.countBefore, hgroups]

theorem undo (h : s.Inv) : { s with buffer := s.buffer.undo }.Inv := by
  unfold TextBuffer.undo
  split
  · exact h
  · next group rest hus =>
    obtain ⟨x, y, c, m, M, place, hpath, htl, heq, hy, hsaved, hplace⟩ :=
      h.undoing hus (List.prefix_refl _)
    obtain rfl := hy rfl
    rw [heq]
    have hpast : s.buffer.past = group.map Wrapper.core ++ (cores rest).flatten := by
      simp [TextBuffer.past, hus]
    have hfuture : (cores (group :: s.buffer.redoStack)).flatMap List.reverse =
      (group.map Wrapper.core).reverse ++ s.buffer.future := by simp [TextBuffer.future]
    refine h.of_moved _ place ?_ ((TextBuffer.nulFree_of_path hpath).2 h.nulFree) htl ?_ rfl ?_ ?_
      hplace
    · exact congrArg (· + 1 - 1) h.frozen
    · show ((cores rest).flatten ++ (cores (group :: s.buffer.redoStack)).flatMap List.reverse).Perm _
      rw [hpast, hfuture, ← List.append_assoc]
      exact (List.perm_append_comm.trans ((List.reverse_perm _).append_right _)).append_right _
    · simp [TextBuffer.groups, TextBuffer.endUndoRedo, TextBuffer.beginUndo, hus]
    · show SavedAt _ _ (cores rest).flatten
        ((cores (group :: s.buffer.redoStack)).flatMap List.reverse) y _ m M place
      rw [hfuture]
      simpa using hsaved

theorem redo (h : s.Inv) : { s with buffer := s.buffer.redo }.Inv := by
  unfold TextBuffer.redo
  split
  · exact h
  · next group rest hrs =>
    obtain ⟨x, y, c, m, M, place, hpath, htl, heq, hy, hsaved, hplace⟩ :=
      h.redoing hrs (List.prefix_refl _)
    obtain rfl := hy rfl
    rw [TextBuffer.actionGroupRedo, heq]
    have hfuture : s.buffer.future = (group.map Wrapper.core).reverse ++
        (cores rest).flatMap List.reverse := by simp [TextBuffer.future, hrs]
    have hpast : (cores (group :: s.buffer.undoStack)).flatten =
      group.map Wrapper.core ++ s.buffer.past := by simp [TextBuffer.past]
    refine h.of_moved _ place ?_ ((TextBuffer.nulFree_of_path hpath).1 h.nulFree) htl ?_ rfl ?_ ?_
      hplace
    · exact congrArg (· + 1 - 1) h.frozen
    · show ((cores (group :: s.buffer.undoStack)).flatten ++ (cores rest).flatMap List.reverse).Perm _
      rw [hpast, hfuture, ← List.append_assoc]
      exact (List.perm_append_comm.trans ((List.reverse_perm _).symm.append_left _)).append_right _
    · simp [TextBuffer.groups, TextBuffer.endUndoRedo, TextBuffer.beginRedo, hrs]
    · show SavedAt _ _ (cores (group :: s.buffer.undoStack)).flatten
        ((cores rest).flatMap List.reverse) y _ m M place
      rw [hpast]
      rw [List.drop_length] at hsaved
      simpa using hsaved

theorem step (h : s.Inv) (op : Op) : (s.step op).Inv := by
  cases op with
  | insert pos text =>
    obtain heq | ⟨w, hw⟩ := TextBuffer.insertText_spec h.frozen h.nulFree pos text
    · simpa [Session.step, Op.run, Session.edit, heq] using h
    · exact h.edit hw
  | delete start stop cursor =>
    obtain heq | ⟨w, hw⟩ := TextBuffer.deleteRange_spec h.frozen h.nulFree start stop cursor
    · simpa [Session.step, Op.run, Session.edit, heq] using h
    · exact h.edit hw
  | undo => exact h.undo
  | redo => exact h.redo
  | save => exact h.save
  | newGroup => exact h.of_eq rfl
  | startGroup => exact h.of_eq rfl
  | endGroup =>
    refine h.of_eq ?_
    simp only [Op.run, TextBuffer.endGroup]
    split_ifs <;> rfl
  | beginUserAction => exact h.of_eq rfl
  | endUserAction =>
    refine h.of_eq ?_
    simp only [Op.run, TextBuffer.endUserAction, TextBuffer.endGroup]
    split_ifs <;> rfl
  | beginNonInteractiveAction => exact h.of_eq rfl
  | endNonInteractiveAction => exact h.of_eq rfl

end Session.Inv

namespace Session

variable {s : Session} {text : List Char}

theorem Inv.foldl_step (h : s.Inv) (ops : List Op) : (ops.foldl Session.step s).Inv := by
  induction ops generalizing s with
  | nil => exact h
  | cons op ops ih => exact ih (h.step op)

/-- Every session is in order. -/
theorem run_inv (h : NulFree text) (ops : List Op) : (run text ops).Inv :=
  (Inv.start h).foldl_step ops

/-- The first recorded text stays. -/
theorem step_head (h : s.Inv) (hhead : s.bounds.head? = some text) (op : Op) :
    (s.step op).bounds.head? = some text := by
  have hedit {b : TextBuffer} {w : Wrapper} (hw : s.buffer.Edits b w) :
      (s.edit b).bounds.head? = some text := by
    have hpos : b.undoStack.length ≠ 0 := by
      have hadded := hw.added
      rw [← length_cores]
      generalize cores b.undoStack = vs at hadded ⊢
      generalize cores s.buffer.undoStack = us at hadded
      cases hadded <;> simp
    obtain ⟨x, xs, hbounds⟩ : ∃ x xs, s.bounds = x :: xs := by
      cases hb : s.bounds with
      | nil => simp [hb] at hhead
      | cons x xs => exact ⟨x, xs, rfl⟩
    obtain ⟨n, hn⟩ := Nat.exists_eq_succ_of_ne_zero hpos
    rw [edit, if_neg hw.takes.ne]
    simpa [hn, hbounds] using hhead
  cases op with
  | insert pos bytes =>
    obtain heq | ⟨w, hw⟩ := TextBuffer.insertText_spec h.frozen h.nulFree pos bytes
    · simpa [step, Op.run, edit, heq] using hhead
    · exact hedit hw
  | delete start stop cursor =>
    obtain heq | ⟨w, hw⟩ := TextBuffer.deleteRange_spec h.frozen h.nulFree start stop cursor
    · simpa [step, Op.run, edit, heq] using hhead
    · exact hedit hw
  | _ => exact hhead

theorem run_head (h : NulFree text) (ops : List Op) : (run text ops).bounds.head? = some text := by
  have key (ops : List Op) : ∀ s : Session, s.Inv → s.bounds.head? = some text →
      (ops.foldl step s).bounds.head? = some text := by
    induction ops with
    | nil => exact fun _ _ hs => hs
    | cons op ops ih => exact fun s hinv hs => ih _ (hinv.step op) (step_head hinv hs op)
  exact key ops _ (.start h) rfl

end Session

/-! ## Going back and forth -/

/-- A step along the recorded groups. -/
inductive Move where
  | undo
  | redo

def Move.run (b : TextBuffer) : Move → TextBuffer
  | undo => b.undo
  | redo => b.redo

namespace Session.Inv

variable {s : Session}

theorem move (h : s.Inv) (m : Move) : { s with buffer := m.run s.buffer }.Inv := by
  cases m with
  | undo => exact h.undo
  | redo => exact h.redo

theorem moves (h : s.Inv) (ms : List Move) : { s with buffer := ms.foldl Move.run s.buffer }.Inv := by
  induction ms generalizing s with
  | nil => exact h
  | cons m ms ih => exact ih (h.move m)

theorem undo_stacks (h : s.Inv) {group : ActionGroup} {rest : List ActionGroup}
    (hus : s.buffer.undoStack = group :: rest) :
    s.buffer.undo.undoStack = rest ∧ s.buffer.undo.redoStack = group :: s.buffer.redoStack := by
  obtain ⟨x, y, c, m, M, place, -, -, heq, -⟩ := h.undoing hus (List.prefix_refl _)
  simp only [TextBuffer.undo, hus, heq]
  exact ⟨rfl, rfl⟩

theorem redo_stacks (h : s.Inv) {group : ActionGroup} {rest : List ActionGroup}
    (hrs : s.buffer.redoStack = group :: rest) :
    s.buffer.redo.redoStack = rest ∧ s.buffer.redo.undoStack = group :: s.buffer.undoStack := by
  obtain ⟨x, y, c, m, M, place, -, -, heq, -⟩ := h.redoing hrs (List.prefix_refl _)
  simp only [TextBuffer.redo, hrs, TextBuffer.actionGroupRedo, heq]
  exact ⟨rfl, rfl⟩

/-- The redo of the group that was just taken back leads to the text before its undo. -/
theorem undo_redo_text (h : s.Inv) {group : ActionGroup} {rest : List ActionGroup}
    (hus : s.buffer.undoStack = group :: rest) : s.buffer.undo.redo.text = s.buffer.text := by
  obtain ⟨hstack, hredo⟩ := h.undo_stacks hus
  have hback : s.buffer.undo.redo.undoStack = s.buffer.undoStack := by
    rw [(h.undo.redo_stacks hredo).2, hstack, hus]
  have hnow := h.undo.redo.timeline.now_eq
  simp only [cores, List.length_map] at hnow
  have hbefore := h.timeline.now_eq
  simp only [cores, List.length_map] at hbefore
  rw [hback, hbefore] at hnow
  exact (Option.some.inj hnow).symm

theorem undoAll (h : s.Inv) :
    { s with buffer := TextBuffer.undo^[s.buffer.undoStack.length] s.buffer }.Inv ∧
      (TextBuffer.undo^[s.buffer.undoStack.length] s.buffer).undoStack = [] := by
  induction hn : s.buffer.undoStack.length generalizing s with
  | zero => exact ⟨h, List.length_eq_zero_iff.1 hn⟩
  | succ n ih =>
    obtain ⟨group, rest, hus⟩ := List.exists_cons_of_length_eq_add_one hn
    have hlen : s.buffer.undo.undoStack.length = n := by
      rw [(h.undo_stacks hus).1]
      simpa [hus] using hn
    exact ih h.undo hlen

theorem redoAll (h : s.Inv) :
    { s with buffer := TextBuffer.redo^[s.buffer.redoStack.length] s.buffer }.Inv ∧
      (TextBuffer.redo^[s.buffer.redoStack.length] s.buffer).redoStack = [] := by
  induction hn : s.buffer.redoStack.length generalizing s with
  | zero => exact ⟨h, List.length_eq_zero_iff.1 hn⟩
  | succ n ih =>
    obtain ⟨group, rest, hrs⟩ := List.exists_cons_of_length_eq_add_one hn
    have hlen : s.buffer.redo.redoStack.length = n := by
      rw [(h.redo_stacks hrs).1]
      simpa [hrs] using hn
    exact ih h.redo hlen

end Session.Inv

namespace Session

variable {text : List Char}

/-- After any edits, any mixture of undo and redo leads to the text recorded at its boundary. All
of the undo stack leads to the first text, all of the redo stack to the last, and undo and redo
of one group take each other back. -/
theorem text_at_boundary (h : NulFree text) (ops : List Op) :
    let s := run text ops
    let b := s.buffer
    (∀ moves : List Move, s.bounds[(moves.foldl Move.run b).undoStack.length]? =
      some (moves.foldl Move.run b).text) ∧
    (TextBuffer.undo^[b.undoStack.length] b).text = text ∧
    s.bounds.getLast? = some (TextBuffer.redo^[b.redoStack.length] b).text ∧
    (b.undoStack ≠ [] → b.undo.redo.text = b.text) ∧
    (b.redoStack ≠ [] → b.redo.undo.text = b.text) := by
  have hinv := run_inv h ops
  have hhead := run_head h ops
  generalize run text ops = s at hinv hhead
  have hnow {b : TextBuffer} (hb : { s with buffer := b }.Inv) :
      s.bounds[b.undoStack.length]? = some b.text := by simpa using hb.timeline.now_eq
  refine ⟨fun moves => hnow (hinv.moves moves), ?_, ?_, fun hne => ?_, fun hne => ?_⟩
  · obtain ⟨hall, hnil⟩ := hinv.undoAll
    have := hnow hall
    rw [hnil, List.length_nil, ← List.head?_eq_getElem?, hhead] at this
    exact (Option.some.inj this).symm
  · obtain ⟨hall, hnil⟩ := hinv.redoAll
    have hlen := hall.timeline.length
    rw [← hnow hall, List.getLast?_eq_getElem?, hlen]
    simp [hnil]
  · obtain ⟨group, rest, hus⟩ := List.exists_cons_of_ne_nil hne
    exact hinv.undo_redo_text hus
  · obtain ⟨group, rest, hrs⟩ := List.exists_cons_of_ne_nil hne
    obtain ⟨hstack, hundo⟩ := hinv.redo_stacks hrs
    have hback := (hinv.redo.undo_stacks hundo).1
    have := hnow hinv.redo.undo
    rw [hback, hnow hinv] at this
    exact (Option.some.inj this).symm

/-- An insertion and a deletion, undone and redone. -/
theorem text_at_boundary_two_edits :
    let b := (run ['a'] [.insert 1 [98], .newGroup, .delete 0 1 0]).buffer
    (TextBuffer.undo^[b.undoStack.length] b).text = ['a'] ∧
      (b.undoStack ≠ [] → b.undo.redo.text = b.text) :=
  have h := @text_at_boundary ['a'] (by decide) [.insert 1 [98], .newGroup, .delete 0 1 0]
  ⟨h.2.1, h.2.2.2.1⟩

/-- At the boundary of the last save the modified flag is clear, and whenever undoing or redoing
the actions of a group leaves it clear, the text is the saved one. -/
theorem modified_saved (h : NulFree text) (ops : List Op) :
    let s := run text ops
    (s.savedAt = some s.buffer.undoStack.length → s.buffer.modified = false) ∧
    (∀ group rest, s.buffer.undoStack = group :: rest → ∀ pre, pre <+: group →
      ((s.buffer.beginUndo group rest).actionGroupUndo pre).modified = false →
        ((s.buffer.beginUndo group rest).actionGroupUndo pre).text = s.saved) ∧
    (∀ group rest, s.buffer.redoStack = group :: rest → ∀ pre, pre <+: group.reverse →
      (pre.foldl TextBuffer.wrapperRedo (s.buffer.beginRedo group rest)).modified = false →
        (pre.foldl TextBuffer.wrapperRedo (s.buffer.beginRedo group rest)).text = s.saved) := by
  have hinv := run_inv h ops
  generalize run text ops = s at hinv
  refine ⟨fun hat => ?_, fun group rest hus pre hpre hm => ?_, fun group rest hrs pre hpre hm => ?_⟩
  · obtain ⟨place, hsaved, hplace⟩ := hinv.saved
    rw [hplace _ hat, ← TextBuffer.length_past] at hsaved
    exact hsaved.not_modified
  · obtain ⟨x, y, c, m, M, place, -, -, heq, -, hsaved, -⟩ := hinv.undoing hus hpre
    rw [heq] at hm ⊢
    obtain rfl : m = false := hm
    exact hsaved.eq_saved
  · obtain ⟨x, y, c, m, M, place, -, -, heq, -, hsaved, -⟩ := hinv.redoing hrs hpre
    rw [heq] at hm ⊢
    obtain rfl : m = false := hm
    exact hsaved.eq_saved

/-- A deletion that is saved. -/
theorem modified_saved_delete : (run ['a', 'b'] [.delete 0 1 0, .save]).buffer.modified = false :=
  (@modified_saved ['a', 'b'] (by decide) [.delete 0 1 0, .save]).1 (by decide)

end Session

end Medit
