import Medit.LineBuffer.Model
import Medit.TextBtree.Runs

/-!
# Marks on lines

The invariant that ties marks to lines, and what adding lines, deleting lines and giving a line
another array of marks do to it. Some marks may be `out`: in the buffer but on no line, between
the steps of an operation.

## Main definitions

* `BTree.rows` — the marks line by line.
* `BTree.Marked` — every mark in the buffer is on one line.
-/

namespace Medit

open Function (update)

namespace BTree

/-- The marks line by line. -/
def rows (t : BTree) : List (List MarkPtr) := t.lines.map t.marks

/-- The mark `m` is on line `i`. -/
def OnLine (t : BTree) (i : ℕ) (m : MarkPtr) : Prop := ∃ row, t.rows[i]? = some row ∧ m ∈ row

/-- Every mark in the buffer but those of `out` is in the array of its line, and knows the number
of the line when its stamp is the one of the tree. -/
structure Marked (t : BTree) (out : List MarkPtr) : Prop where
  ok : ∃ lev, t.Ok lev
  stocked : t.Stocked
  nodup : ∀ x ∈ t.lines, (t.marks x).Nodup
  on_line : ∀ x ∈ t.lines, ∀ m ∈ t.marks x,
    (t.mark m).buffer = true ∧ (t.mark m).line = some x ∧ m ∉ out
  live : ∀ m, (t.mark m).buffer = true → m ∈ out ∨ ∃ x ∈ t.lines, m ∈ t.marks x
  out_live : ∀ m ∈ out, (t.mark m).buffer = true
  dead : ∀ m, (t.mark m).buffer = false → (t.mark m).line = none
  stamp_le : ∀ m, (t.mark m).stamp ≤ t.stamp
  lineNo : ∀ x ∈ t.lines, ∀ m ∈ t.marks x, (t.mark m).stamp = t.stamp →
    ∃ i : ℕ, (t.mark m).lineNo = i ∧ t.lines[i]? = some x

variable {t t' : BTree} {lev : Ptr → Option ℕ} {out : List MarkPtr}

theorem Stocked.marksOf (hs : t.Stocked) {x : Ptr} (hx : x ∈ t.lines) : t.marksOf x = t.marks x := by
  rw [BTree.marksOf, hs x hx, List.take_length]

theorem getElem?_rows (i : ℕ) : t.rows[i]? = t.lines[i]?.map t.marks := List.getElem?_map

theorem length_rows : t.rows.length = t.lines.length := List.length_map _

namespace Marked

variable (h : t.Marked out)
include h

theorem nodup_lines : t.lines.Nodup := h.ok.elim fun _ hok => hok.nodup_lines

theorem size_eq : t.size = t.rows.length := by
  obtain ⟨lev, hok⟩ := h.ok
  rw [length_rows, hok.length_lines]

theorem size_lt : t.size < 2 ^ 26 := h.ok.elim fun _ hok => hok.count_lt

theorem getData_eq {i : ℕ} (hi : i < t.rows.length) : t.getData i = t.lines[i]? := by
  obtain ⟨lev, hok⟩ := h.ok
  exact hok.getData_eq (by rwa [← h.size_eq] at hi)

theorem getLine_eq {i : ℕ} (hi : i < t.rows.length) : t.getLine i = t.lines[i]? := by
  have hlt := h.size_lt
  rw [h.size_eq] at hlt
  rw [getLine, guint_eq (by omega), h.getData_eq hi]

theorem of_out {out' : List MarkPtr} (hout : ∀ m, m ∈ out' ↔ m ∈ out) : t.Marked out' :=
  ⟨h.ok, h.stocked, h.nodup, by simpa only [hout] using h.on_line, by simpa only [hout] using h.live,
    by simpa only [hout] using h.out_live, h.dead, h.stamp_le, h.lineNo⟩

/-- The marks of the root are the marks of all lines. -/
theorem nMarks_root : t.nMarks t.root = t.rows.flatten.length := by
  obtain ⟨lev, hok⟩ := h.ok
  rw [← hok.sum_marks hok.shape.root_lev, List.length_flatten, rows, List.map_map]
  exact congrArg _ (List.map_congr_left fun x hx => h.stocked x hx)

/-- A mark is on one line at most. -/
theorem line_unique {x y : Ptr} (hx : x ∈ t.lines) (hy : y ∈ t.lines) {m : MarkPtr}
    (hmx : m ∈ t.marks x) (hmy : m ∈ t.marks y) : x = y := by
  have h1 := (h.on_line x hx m hmx).2.1
  have h2 := (h.on_line y hy m hmy).2.1
  exact Option.some.inj (h1.symm.trans h2)

theorem nodup_rows : t.rows.flatten.Nodup := by
  rw [rows, ← List.flatMap_def, List.nodup_flatMap]
  refine ⟨h.nodup, h.nodup_lines.imp_of_mem fun {x y} hx hy hxy m hmx hmy => hxy ?_⟩
  exact h.line_unique hx hy hmx hmy

end Marked

/-! ## New lines -/

theorem Inserts.rows {index : ℕ} {d : Ptr} (h : Inserts t t' index d) :
    t'.rows = t.rows.insertIdx index [] := by
  have hd : update t.marks d [] d = [] := Function.update_self ..
  have hmap : t.lines.map (update t.marks d []) = t.lines.map t.marks :=
    List.map_congr_left fun x hx => Function.update_of_ne (by rintro rfl; exact h.new hx) ..
  rw [BTree.rows, BTree.rows, h.lines, h.marks, ← hmap, ← hd, List.map_insertIdx]
  simp

/-- A new line has no marks, and its number is no mark's. -/
theorem Inserts.marked {index : ℕ} {d : Ptr} (h : Inserts t t' index d) (hm : t.Marked out)
    (hok : ∃ lev, t'.Ok lev) (hi : index ≤ t.lines.length) (hstamp : t.stamp + 1 < 2 ^ 32) :
    t'.Marked out := by
  have hs : t'.stamp = t.stamp + 1 := h.stamp.trans (by exact_mod_cast guint_eq hstamp)
  have hmem (x : Ptr) : x ∈ t'.lines ↔ x = d ∨ x ∈ t.lines := by rw [h.lines, List.mem_insertIdx hi]
  have hnew := h.new
  have hmarks (x : Ptr) : t'.marks x = if x = d then [] else t.marks x := by
    rw [h.marks, Function.update_apply]
  have hmark := h.mark
  obtain ⟨-, hstocked, hnodup, hon, hlive, hout, hdead, hle, -⟩ := hm
  refine ⟨hok, h.stocked hi hstocked, ?_, ?_, ?_, ?_, ?_, ?_, ?_⟩ <;>
    simp only [hmem, hmarks, hmark, hs] <;> grind

/-- `_moo_text_btree_insert_range` -/
theorem insertRange_marked (hm : t.Marked out) (first num : ℕ) (hfirst : first ≤ t.rows.length)
    (hnum : 0 < num) (hsize : t.rows.length + num < 2 ^ 26) (hstamp : t.stamp + num < 2 ^ 32) :
    ∃ t', t.insertRange first num = some t' ∧ t'.Marked out ∧
      t'.rows = t.rows.take first ++ List.replicate num [] ++ t.rows.drop first ∧
      t'.mark = t.mark ∧ t'.stamp = t.stamp + num := by
  have key (n : ℕ) : ∀ hle : n ≤ num, ∃ t',
      (List.range n).foldlM (fun t _ => (t.insert first).map Prod.fst) t = some t' ∧
      t'.Marked out ∧
      t'.rows = t.rows.take first ++ List.replicate n [] ++ t.rows.drop first ∧
      t'.mark = t.mark ∧ t'.stamp = t.stamp + n := by
    induction n with
    | zero => exact fun _ => ⟨t, rfl, hm, by simp, rfl, rfl⟩
    | succ n ih =>
      intro hle
      obtain ⟨t₁, hrun, hm₁, hrows, hmark, hst⟩ := ih (by omega)
      have hlen : t₁.rows.length = t.rows.length + n := by
        rw [hrows]
        simp
        omega
      have hsz := hm₁.size_eq
      obtain ⟨lev, hok⟩ := hm₁.ok
      obtain ⟨t₂, d, lev', heq, hok', hins⟩ :=
        insert_spec hok (show first ≤ t₁.size by omega) (by omega)
      refine ⟨t₂, ?_, hins.marked hm₁ ⟨lev', hok'⟩ ?_ (by omega), ?_, hins.mark.trans hmark, ?_⟩
      · rw [List.range_succ, List.foldlM_append, hrun]
        simp [heq]
      · rw [← length_rows]
        omega
      · rw [hins.rows, hrows, LevelTree.insertIdx_eq_take_drop _ (by simp; omega)]
        simp [List.replicate_succ, Nat.min_eq_left hfirst]
      · rw [hins.stamp, hst]
        have : guint ((t.stamp + n : ℕ) + 1 : ℕ) = t.stamp + n + 1 := guint_eq (by omega)
        exact_mod_cast this
  obtain ⟨t', hrun, hrest⟩ := key num le_rfl
  have hto : toInt (t.count t.root) = t.rows.length := by
    have := hm.size_eq
    rw [size] at this
    rw [this, toInt, if_pos (by omega)]
  refine ⟨t', ?_, hrest⟩
  rw [insertRange, gAssert_true (by rw [hto]; omega), gAssert_true (by omega)]
  simpa using hrun

/-! ## Deleted lines -/

theorem Deletes.rows {index : ℕ} {removed removed' : List MarkPtr} {d : Ptr}
    (h : Deletes t t' index removed removed' d) : t'.rows = t.rows.eraseIdx index := by
  rw [BTree.rows, BTree.rows, h.lines, h.marks, List.eraseIdx_map]

/-- The marks of a deleted line are out. -/
theorem Deletes.marked {index : ℕ} {removed removed' : List MarkPtr} {d : Ptr}
    (h : Deletes t t' index removed removed' d) (hm : t.Marked out) (hok : ∃ lev, t'.Ok lev)
    (hstamp : t.stamp + 1 < 2 ^ 32) : t'.Marked (t.marks d ++ out) := by
  have hs : t'.stamp = t.stamp + 1 := h.stamp.trans (by exact_mod_cast guint_eq hstamp)
  have hd : d ∈ t.lines := List.mem_of_getElem? h.line
  have hmem (x : Ptr) : x ∈ t'.lines ↔ x ≠ d ∧ x ∈ t.lines := by
    obtain ⟨hlt, hx⟩ := List.getElem?_eq_some_iff.1 h.line
    rw [h.lines, ← hx, ← hm.nodup_lines.erase_getElem, hm.nodup_lines.mem_erase_iff]
  have hmarks := h.marks
  have hmark (m : MarkPtr) : t'.mark m =
      if m ∈ t.marks d then (t.mark m).setLine none (-1) 0 else t.mark m := by
    rw [h.mark, hm.stocked.marksOf hd]
  have huniq := @hm.line_unique
  obtain ⟨-, hstocked, hnodup, hon, hlive, hout, hdead, hle, -⟩ := hm
  refine ⟨hok, h.stocked hstocked, ?_, ?_, ?_, ?_, ?_, ?_, ?_⟩ <;>
    simp only [hmem, hmarks, hmark, hs, List.mem_append] <;> grind [LineMark.setLine]

/-- `_moo_text_btree_delete_range` -/
theorem deleteRange_marked (hm : t.Marked out) (first num : ℕ) (hnum : 0 < num)
    (hend : first + num ≤ t.rows.length) (hone : num < t.rows.length)
    (hstamp : t.stamp + num < 2 ^ 32) (removed : List MarkPtr) :
    ∃ t' gone, t.deleteRange first num removed = some (t', gone.reverse ++ removed) ∧
      gone = ((t.rows.drop first).take num).flatten ∧ t'.Marked (gone ++ out) ∧
      t'.rows = t.rows.take first ++ t.rows.drop (first + num) ∧
      (t'.mark = fun m => if m ∈ gone then (t.mark m).setLine none (-1) 0 else t.mark m) ∧
      t'.stamp = t.stamp + num := by
  have key (n : ℕ) : ∀ hle : n ≤ num, ∃ t' gone,
      (List.range n).foldlM (fun (s : BTree × List MarkPtr) _ => s.1.delete first s.2) (t, removed) =
        some (t', gone.reverse ++ removed) ∧
      gone = ((t.rows.drop first).take n).flatten ∧ t'.Marked (gone ++ out) ∧
      t'.rows = t.rows.take first ++ t.rows.drop (first + n) ∧
      (t'.mark = fun m => if m ∈ gone then (t.mark m).setLine none (-1) 0 else t.mark m) ∧
      t'.stamp = t.stamp + n := by
    induction n with
    | zero => exact fun _ => ⟨t, [], rfl, by simp, by simpa using hm, by simp, by simp, rfl⟩
    | succ n ih =>
      intro hle
      obtain ⟨t₁, gone, hrun, hgone, hm₁, hrows, hmark, hst⟩ := ih (by omega)
      have hlen : t₁.rows.length = t.rows.length - n := by
        rw [hrows]
        simp
        omega
      have hsz := hm₁.size_eq
      obtain ⟨lev, hok⟩ := hm₁.ok
      obtain ⟨t₂, removed', d, lev', heq, hok', hdel⟩ := delete_spec hok (by omega)
        (show first < t₁.size by omega) (fun x hx => (hm₁.stocked x hx).le) (gone.reverse ++ removed)
      have hd : d ∈ t₁.lines := List.mem_of_getElem? hdel.line
      have hof := hm₁.stocked.marksOf hd
      have hrow : t.rows[first + n]? = some (t₁.marks d) := by
        have := getElem?_rows (t := t₁) first
        rw [hdel.line, hrows, List.getElem?_append_right (by simp)] at this
        simpa [Nat.min_eq_left (show first ≤ t.rows.length by omega)] using this
      have hgone' : ((t.rows.drop first).take (n + 1)).flatten = gone ++ t₁.marks d := by
        rw [List.take_add_one, List.getElem?_drop, hrow, hgone]
        simp
      refine ⟨t₂, gone ++ t₁.marks d, ?_, hgone'.symm, ?_, ?_, ?_, ?_⟩
      · rw [List.range_succ, List.foldlM_append, hrun]
        simp [heq, hdel.removed, hof]
      · have := hdel.marked hm₁ ⟨lev', hok'⟩ (by omega)
        exact this.of_out fun m => by simp only [List.mem_append]; tauto
      · rw [hdel.rows, hrows, List.eraseIdx_append_of_length_le (by simp)]
        simp [Nat.min_eq_left (show first ≤ t.rows.length by omega), List.eraseIdx_zero]
        rfl
      · funext m
        rw [hdel.mark, hof, hmark]
        by_cases h1 : m ∈ gone <;> by_cases h2 : m ∈ t₁.marks d <;>
          simp [h1, h2, LineMark.setLine]
      · rw [hdel.stamp, hst]
        have : guint ((t.stamp + n : ℕ) + 1 : ℕ) = t.stamp + n + 1 := guint_eq (by omega)
        exact_mod_cast this
  obtain ⟨t', gone, hrun, hrest⟩ := key num le_rfl
  have hto : toInt (t.count t.root) = t.rows.length := by
    have hsz := hm.size_eq
    have hlt := hm.size_lt
    rw [size] at hsz hlt
    rw [toInt, if_pos (by omega), hsz]
  refine ⟨t', gone, ?_, hrest⟩
  rw [deleteRange, gAssert_true (by rw [hto]; omega), gAssert_true (by rw [hto]; omega)]
  simpa using hrun

/-! ## Another array of marks for a line -/

/-- The line `d` of `t'` has the marks `l`. -/
structure Restocks (t t' : BTree) (d : Ptr) (l : List MarkPtr) : Prop where
  eq : t' = { t with marks := update t.marks d l, nMarks := t'.nMarks }
  ok : ∃ lev, t'.Ok lev
  stocked : t'.Stocked

/-- The array and `n_marks` of a line change together. -/
theorem restock_spec (hok : t.Ok lev) (hs : t.Stocked) {d : Ptr} (hd : d ∈ t.lines)
    (l : List MarkPtr) (add : ℤ) (hadd : add ≠ 0) (hl : (l.length : ℤ) = (t.marks d).length + add)
    (hlt : t.nMarks t.root + add < 2 ^ 31) :
    ∃ t', (t.setMarks d l).updateNMarks d add = some t' ∧ Restocks t t' d l := by
  have hd' := hs d hd
  obtain ⟨t', heq, hok', hcounts⟩ := updateNMarks_spec (hok.of_marks (update t.marks d l)) hd hadd
    (by simp only; omega) hlt
  refine ⟨t', heq, ?_, ⟨lev, hok'⟩, hcounts.stocked hs (by omega)⟩
  rw [hcounts.eq]

end BTree

end Medit
