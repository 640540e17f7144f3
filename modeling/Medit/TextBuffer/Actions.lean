import Mathlib.Data.List.TakeWhile
import Mathlib.Order.Lattice
import Medit.Library.History
import Medit.TextBuffer.Undo

/-!
# What edit actions record

An action leads from the text before it to the text after it. Undoing and redoing it goes one
way and the other, and two merged actions lead the whole way of both.
-/

namespace Medit

open History

/-- `GtkTextBuffer` holds no zeros. -/
def NulFree (text : List Char) : Prop := '\x00' ∉ text

instance (text : List Char) : Decidable (NulFree text) := inferInstanceAs (Decidable (¬ _))

theorem NulFree.append {xs ys : List Char} (hx : NulFree xs) (hy : NulFree ys) :
    NulFree (xs ++ ys) := fun h => (List.mem_append.1 h).elim hx hy

theorem NulFree.of_sublist {xs ys : List Char} (hy : NulFree ys) (h : xs.Sublist ys) :
    NulFree xs := fun hx => hy (h.mem hx)

theorem utf8Validate_encode {cs : List Char} (h : NulFree cs) :
    utf8Validate (Utf8.encode cs) = some cs := by
  simp [utf8Validate, Utf8.zero_notMem_encode h]

theorem utf8Validate_eq_some {text : List UInt8} {cs : List Char}
    (h : utf8Validate text = some cs) : Utf8.encode cs = text ∧ NulFree cs := by
  unfold utf8Validate at h
  split_ifs at h with hz
  have henc := Utf8.encode_of_decode h
  refine ⟨henc, fun hmem => hz ?_⟩
  rw [← henc]
  exact List.mem_flatMap.2 ⟨_, hmem, by decide⟩

theorem cString_encode {cs : List Char} (h : NulFree cs) :
    cString (Utf8.encode cs) = Utf8.encode cs := by
  have hz := Utf8.zero_notMem_encode h
  refine List.takeWhile_eq_self_iff.2 fun b hb => ?_
  simpa using fun h0 : b = 0 => hz (h0 ▸ hb)

/-! ## From text to text -/

/-- The insertion leads from `x` to `y`. -/
structure InsertAction.Takes (a : InsertAction) (x y cs : List Char) : Prop where
  ne_nil : cs ≠ []
  text : a.text = Utf8.encode cs
  length : a.length = a.text.length
  chars : a.chars = cs.length
  pos_le : a.pos ≤ x.length
  eq : y = x.take a.pos ++ cs ++ x.drop a.pos

/-- The deletion leads from `x` to `y`. -/
structure DeleteAction.Takes (a : DeleteAction) (x y : List Char) : Prop where
  lt : a.start < a.stop
  stop_le : a.stop ≤ x.length
  text : a.text = Utf8.encode ((x.take a.stop).drop a.start)
  eq : y = x.take a.start ++ x.drop a.stop

/-- The action leads from `x` to `y`. -/
def Wrapper.Takes (w : Wrapper) (x y : List Char) : Prop :=
  NulFree x ∧ NulFree y ∧
    match w.action with
    | .insert a => ∃ cs, a.Takes x y cs
    | .delete a => a.Takes x y

/-- The text before the action. -/
def Wrapper.before (w : Wrapper) (y : List Char) : List Char :=
  match w.action with
  | .insert a => y.take a.pos ++ y.drop (a.pos + a.chars)
  | .delete a => y.take a.start ++ (Utf8.decode a.text).getD [] ++ y.drop a.start

/-- The text after the action. -/
def Wrapper.after (w : Wrapper) (x : List Char) : List Char :=
  match w.action with
  | .insert a => x.take a.pos ++ (Utf8.decode a.text).getD [] ++ x.drop a.pos
  | .delete a => x.take a.start ++ x.drop a.stop

theorem InsertAction.Takes.before {a : InsertAction} {x y cs : List Char} (h : a.Takes x y cs) :
    y.take a.pos ++ y.drop (a.pos + a.chars) = x := by
  have hlen : (x.take a.pos).length = a.pos := List.length_take_of_le h.pos_le
  have hlen' : (x.take a.pos ++ cs).length = a.pos + a.chars := by
    rw [List.length_append, hlen, h.chars]
  rw [h.eq, List.drop_left' hlen', List.append_assoc, List.take_left' hlen,
    List.take_append_drop]

theorem DeleteAction.Takes.before {a : DeleteAction} {x y : List Char} (h : a.Takes x y) :
    y.take a.start ++ (x.take a.stop).drop a.start ++ y.drop a.start = x := by
  have hle := h.lt.le.trans h.stop_le
  have hlen : (x.take a.start).length = a.start := List.length_take_of_le hle
  have hmid : x.take a.start ++ (x.take a.stop).drop a.start = x.take a.stop := by
    have := List.take_append_drop a.start (x.take a.stop)
    rwa [List.take_take, min_eq_left h.lt.le] at this
  rw [h.eq, List.take_left' hlen, List.drop_left' hlen, hmid, List.take_append_drop]

namespace Wrapper

variable {w : Wrapper} {x x' y y' : List Char}

theorem Takes.before_eq (h : w.Takes x y) : w.before y = x := by
  obtain ⟨-, -, h⟩ := h
  unfold Wrapper.before
  cases hw : w.action with
  | insert a =>
    rw [hw] at h
    obtain ⟨cs, h⟩ := h
    exact h.before
  | delete a =>
    rw [hw] at h
    simpa [h.text] using h.before

theorem Takes.after_eq (h : w.Takes x y) : w.after x = y := by
  obtain ⟨-, -, h⟩ := h
  unfold Wrapper.after
  cases hw : w.action with
  | insert a =>
    rw [hw] at h
    obtain ⟨cs, h⟩ := h
    simp [h.text, h.eq]
  | delete a =>
    rw [hw] at h
    exact h.eq.symm

theorem Takes.ne (h : w.Takes x y) : y ≠ x := by
  obtain ⟨-, -, h⟩ := h
  intro hxy
  have hlen := congrArg List.length hxy
  cases hw : w.action with
  | insert a =>
    rw [hw] at h
    obtain ⟨cs, h⟩ := h
    have hpos := List.length_pos_of_ne_nil h.ne_nil
    have hle := h.pos_le
    rw [h.eq] at hlen
    simp only [List.length_append, List.length_take, List.length_drop] at hlen
    omega
  | delete a =>
    rw [hw] at h
    have hlt := h.lt
    have hle := h.stop_le
    rw [h.eq] at hlen
    simp only [List.length_append, List.length_take, List.length_drop] at hlen
    omega

theorem Takes.left_unique (h : w.Takes x y) (h' : w.Takes x' y) : x = x' :=
  h.before_eq.symm.trans h'.before_eq

theorem Takes.right_unique (h : w.Takes x y) (h' : w.Takes x y') : y = y' :=
  h.after_eq.symm.trans h'.after_eq

end Wrapper

/-! ## Merging -/

theorem actionMerge_spec (M : Option ActionPtr) (last action : EditAction) (addr : ActionPtr) :
    (actionMerge M last action addr).1 =
        { last with mergeable := (actionMerge M last action addr).1.mergeable } ∧
      ((actionMerge M last action addr).2 = true → M ≠ some addr) := by
  unfold actionMerge
  split_ifs with h1 h2
  · simp
  · simp
  · simp only [not_or] at h2
    exact ⟨rfl, fun _ => h2.2.1⟩

/-- What `insert_action_merge` makes of the last action. -/
theorem insertActionMerge_spec (M : Option ActionPtr) (last action : InsertAction)
    (addr : ActionPtr) :
    ((insertActionMerge M last action addr).2 = false →
      ∃ m, (insertActionMerge M last action addr).1 = { last with mergeable := m }) ∧
    ((insertActionMerge M last action addr).2 = true → M ≠ some addr ∧
      ∀ x y z cs ds, last.Takes x y cs → action.Takes y z ds →
        (insertActionMerge M last action addr).1.Takes x z (cs ++ ds)) := by
  obtain ⟨hedit, hM⟩ := actionMerge_spec M last.toEditAction action.toEditAction addr
  unfold insertActionMerge
  split
  · next edit heq =>
    rw [heq] at hedit
    refine ⟨fun _ => ⟨edit.mergeable, ?_⟩, by simp⟩
    simp only at hedit
    rw [hedit]
  · next heq =>
    rw [heq] at hM
    split_ifs with hcond
    · exact ⟨fun _ => ⟨false, rfl⟩, by simp⟩
    · refine ⟨by simp, fun _ => ⟨hM rfl, fun x y z cs ds hl ha => ?_⟩⟩
      obtain ⟨hpos, -⟩ := not_or.1 hcond
      have hpos : action.pos = last.pos + cs.length := by
        rw [← hl.chars]
        exact not_not.1 hpos
      have hlen : (x.take last.pos ++ cs).length = action.pos := by
        rw [List.length_append, List.length_take, min_eq_left hl.pos_le, hpos]
      refine ⟨by simp [hl.ne_nil], by simp [hl.text, ha.text], by simp [hl.length, ha.length],
        by simp [hl.chars, ha.chars], hl.pos_le, ?_⟩
      rw [ha.eq, hl.eq, List.take_left' hlen, List.drop_left' hlen]
      simp

/-- Two pieces of a text next to each other. -/
theorem drop_take_append {x : List Char} {a b c : ℕ} (hab : a ≤ b) (hbc : b ≤ c)
    (hb : b ≤ x.length) : (x.take b).drop a ++ (x.take c).drop b = (x.take c).drop a := by
  have hsplit := List.take_append_drop b (x.take c)
  rw [List.take_take, min_eq_left hbc] at hsplit
  rw [← List.drop_append_of_le_length (by rw [List.length_take_of_le hb]; exact hab), hsplit]

/-- What `delete_action_merge` makes of the last action. -/
theorem deleteActionMerge_spec (M : Option ActionPtr) (last action : DeleteAction)
    (addr : ActionPtr) :
    ((deleteActionMerge M last action addr).2 = false →
      ∃ m, (deleteActionMerge M last action addr).1 = { last with mergeable := m }) ∧
    ((deleteActionMerge M last action addr).2 = true → M ≠ some addr ∧
      ∀ x y z, last.Takes x y → action.Takes y z →
        (deleteActionMerge M last action addr).1.Takes x z) := by
  obtain ⟨hedit, hM⟩ := actionMerge_spec M last.toEditAction action.toEditAction addr
  unfold deleteActionMerge
  split
  · next edit heq =>
    rw [heq] at hedit
    refine ⟨fun _ => ⟨edit.mergeable, ?_⟩, by simp⟩
    simp only at hedit
    rw [hedit]
  · next heq =>
    rw [heq] at hM
    split_ifs with hcond hstart hspace hspace
    · exact ⟨fun _ => ⟨false, rfl⟩, by simp⟩
    · exact ⟨fun _ => ⟨false, rfl⟩, by simp⟩
    · -- the text after what was deleted last is deleted
      refine ⟨by simp, fun _ => ⟨hM rfl, fun x y z hl ha => ?_⟩⟩
      have hlen : (x.take last.start).length = action.start := by
        rw [← hstart]
        exact List.length_take_of_le (hl.lt.le.trans hl.stop_le)
      have hlt := ha.lt
      have hle := ha.stop_le
      rw [hl.eq, List.length_append, hlen, List.length_drop] at hle
      have hstop := hl.stop_le
      have hpiece : (y.take action.stop).drop action.start =
          (x.take (last.stop + (action.stop - action.start))).drop last.stop := by
        rw [hl.eq, List.drop_take, List.drop_left' hlen, List.drop_take]
        congr 1
        omega
      refine ⟨Nat.lt_add_right _ hl.lt, by simp only; omega, ?_, ?_⟩
      · rw [hl.text, ha.text, hpiece, ← Utf8.encode_append,
          drop_take_append hl.lt.le (Nat.le_add_right _ _) hl.stop_le]
      · rw [ha.eq, hl.eq, List.take_left' hlen, List.drop_append, hlen,
          List.drop_of_length_le (by rw [hlen]; exact hlt.le), List.drop_drop, List.nil_append]
    · exact ⟨fun _ => ⟨false, rfl⟩, by simp⟩
    · -- the text before what was deleted last is deleted
      refine ⟨by simp, fun _ => ⟨hM rfl, fun x y z hl ha => ?_⟩⟩
      have hmid : last.start = action.stop := by
        by_contra hne
        exact hcond (.inr ⟨hstart, hne⟩)
      have hlen : (x.take last.start).length = action.stop := by
        rw [← hmid]
        exact List.length_take_of_le (hl.lt.le.trans hl.stop_le)
      have hpiece : (y.take action.stop).drop action.start =
          (x.take last.start).drop action.start := by
        rw [hl.eq, List.take_left' hlen]
      have hlt := ha.lt
      have hlt' := hl.lt
      refine ⟨by simp only; omega, hl.stop_le, ?_, ?_⟩
      · rw [hl.text, ha.text, hpiece, ← Utf8.encode_append,
          drop_take_append (by omega) hl.lt.le (hl.lt.le.trans hl.stop_le)]
      · rw [ha.eq, hl.eq, List.drop_left' hlen, List.take_append_of_le_length (by rw [hlen]; exact hlt.le),
          List.take_take, min_eq_left (by omega)]

/-- The action without the flag that says whether it may still be merged. -/
def Wrapper.core (w : Wrapper) : Wrapper :=
  match w.action with
  | .insert a => { w with action := .insert { a with mergeable := false } }
  | .delete a => { w with action := .delete { a with mergeable := false } }

@[simp] theorem Wrapper.core_addr (w : Wrapper) : w.core.addr = w.addr := by
  unfold core
  split <;> rfl

theorem Wrapper.takes_core {w : Wrapper} {x y : List Char} : w.core.Takes x y ↔ w.Takes x y := by
  unfold core Takes
  cases hw : w.action with
  | insert a =>
    refine and_congr_right fun _ => and_congr_right fun _ => exists_congr fun cs => ?_
    exact ⟨fun h => ⟨h.1, h.2, h.3, h.4, h.5, h.6⟩, fun h => ⟨h.1, h.2, h.3, h.4, h.5, h.6⟩⟩
  | delete a =>
    refine and_congr_right fun _ => and_congr_right fun _ => ?_
    exact ⟨fun h => ⟨h.1, h.2, h.3, h.4⟩, fun h => ⟨h.1, h.2, h.3, h.4⟩⟩

namespace TextBuffer

/-- The newest group with a new action in it. -/
theorem actionGroupMerge_spec (b : TextBuffer) (group : ActionGroup) (w : Wrapper) :
    ((b.actionGroupMerge group w).2.2 = false →
      (b.actionGroupMerge group w).1 = b ∧
        (b.actionGroupMerge group w).2.1.map Wrapper.core = group.map Wrapper.core) ∧
    ((b.actionGroupMerge group w).2.2 = true →
      b.modifyingAction ≠ some w.addr ∧ (b.actionGroupMerge group w).1 = b ∧
      ∃ old old' rest, group = old :: rest ∧ (b.actionGroupMerge group w).2.1 = old' :: rest ∧
        old'.addr = old.addr ∧ ∀ x y z, old.Takes x y → w.Takes y z → old'.Takes x z) := by
  unfold actionGroupMerge
  split
  · exact ⟨fun _ => ⟨rfl, rfl⟩, by simp⟩
  · next old rest =>
    split
    · next last action hold hw =>
      obtain ⟨hfalse, htrue⟩ := insertActionMerge_spec b.modifyingAction last action w.addr
      refine ⟨fun hm => ?_, fun hm => ?_⟩
      · obtain ⟨m, hlast⟩ := hfalse hm
        simp only at hm
        refine ⟨by simp [hm], ?_⟩
        simp [hlast, Wrapper.core, hold]
      · obtain ⟨hM, htakes⟩ := htrue hm
        simp only at hm
        refine ⟨hM, by simp [editActionDestroy, hM], old, _, rest, rfl, rfl, rfl, ?_⟩
        intro x y z hx hy
        obtain ⟨hx0, hy0, hx⟩ := hx
        obtain ⟨-, hz0, hy⟩ := hy
        rw [hold] at hx
        rw [hw] at hy
        obtain ⟨cs, hx⟩ := hx
        obtain ⟨ds, hy⟩ := hy
        exact ⟨hx0, hz0, _, htakes x y z cs ds hx hy⟩
    · next last action hold hw =>
      obtain ⟨hfalse, htrue⟩ := deleteActionMerge_spec b.modifyingAction last action w.addr
      refine ⟨fun hm => ?_, fun hm => ?_⟩
      · obtain ⟨m, hlast⟩ := hfalse hm
        simp only at hm
        refine ⟨by simp [hm], ?_⟩
        simp [hlast, Wrapper.core, hold]
      · obtain ⟨hM, htakes⟩ := htrue hm
        simp only at hm
        refine ⟨hM, by simp [editActionDestroy, hM], old, _, rest, rfl, rfl, rfl, ?_⟩
        intro x y z hx hy
        obtain ⟨hx0, hy0, hx⟩ := hx
        obtain ⟨-, hz0, hy⟩ := hy
        rw [hold] at hx
        rw [hw] at hy
        exact ⟨hx0, hz0, htakes x y z hx hy⟩
    · exact ⟨fun _ => ⟨rfl, rfl⟩, by simp⟩

end TextBuffer

end Medit
