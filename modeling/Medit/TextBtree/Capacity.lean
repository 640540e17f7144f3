import Medit.LineBuffer.Limits
import Medit.TextBtree.Runs

/-!
# How many lines the tree can have

A `count` has 26 bits, and no insertion is turned down for the number of lines there are.

## Main definitions

* `Insertion` — one call of `_moo_text_btree_insert` or `_moo_text_btree_insert_range`.

## Main results

* `BTree.insertions_iff` — the tree is right after a run exactly below `2 ^ 26` lines.
-/

namespace Medit

/-- A call that inserts lines. -/
inductive Insertion where
  | insert (index : ℕ)
  | insertRange (first num : ℤ)

namespace Insertion

/-- The assertions before anything is done: the tree has the line number. -/
def Accepted (t : BTree) : Insertion → Prop
  | insert index => index ≤ t.size
  | insertRange first num => (0 ≤ first ∧ first ≤ toInt t.size) ∧ 0 < num

def run (t : BTree) : Insertion → Option BTree
  | insert index => (t.insert index).map Prod.fst
  | insertRange first num => t.insertRange first num

/-- How many lines are inserted. -/
def lines : Insertion → ℕ
  | insert _ => 1
  | insertRange _ num => num.toNat

/-- Each call of a run is accepted by the tree that it is made on. -/
def AcceptedRun (t : BTree) : List Insertion → Prop
  | [] => True
  | op :: ops => op.Accepted t ∧ ∀ t', op.run t = some t' → AcceptedRun t' ops

end Insertion

namespace BTree

variable {t t' : BTree} {lev : Ptr → Option ℕ}

/-! ## Every count fits into its bits -/

/-- No tree that an insertion leads to counts `2 ^ 26` lines. -/
theorem CountsFit.run {op : Insertion} (h : t.CountsFit) (heq : op.run t = some t') :
    t'.CountsFit := by
  cases op with
  | insert index =>
    obtain ⟨⟨u, d⟩, hu, rfl⟩ := Option.map_eq_some_iff.1 heq
    exact (h.insert hu).1
  | insertRange first num => exact h.insertRange heq

theorem CountsFit.foldlM_run {ops : List Insertion} (h : t.CountsFit)
    (heq : ops.foldlM (fun t op => op.run t) t = some t') : t'.CountsFit := by
  induction ops generalizing t with
  | nil => exact Option.some.inj heq ▸ h
  | cons op ops ih =>
    simp only [List.foldlM_cons, Option.bind_eq_bind, Option.bind_eq_some_iff] at heq
    obtain ⟨u, hu, heq⟩ := heq
    exact ih (h.run hu) heq

/-! ## Runs below the limit -/

/-- Lines inserted one after the other at one place. -/
theorem insertLines_spec (index : ℕ) (xs : List ℕ) (h : t.Ok lev) (hi : index ≤ t.size)
    (hlt : t.size + xs.length < 2 ^ 26) :
    ∃ t' lev', xs.foldlM (fun t _ => (t.insert index).map Prod.fst) t = some t' ∧ t'.Ok lev' ∧
      t'.size = t.size + xs.length := by
  induction xs generalizing t lev with
  | nil => exact ⟨t, lev, rfl, h, rfl⟩
  | cons x xs ih =>
    rw [List.length_cons] at hlt
    obtain ⟨u, d, lev', hu, hok, hins⟩ := insert_spec h hi (by omega)
    have hsize : u.size = t.size + 1 := by
      rw [← hok.length_lines, hins.lines, List.length_insertIdx, if_pos (h.length_lines ▸ hi),
        h.length_lines]
    obtain ⟨t', lev'', heq, hok', hsize'⟩ := ih hok (by omega) (by omega)
    refine ⟨t', lev'', by simpa [hu] using heq, hok', ?_⟩
    rw [hsize', hsize, List.length_cons]
    omega

theorem run_spec {op : Insertion} (h : t.Ok lev) (hacc : op.Accepted t)
    (hlt : t.size + op.lines < 2 ^ 26) :
    ∃ t' lev', op.run t = some t' ∧ t'.Ok lev' ∧ t'.size = t.size + op.lines := by
  cases op with
  | insert index =>
    obtain ⟨t', lev', heq, hok, hsize⟩ := insertLines_spec index [0] h hacc hlt
    exact ⟨t', lev', by simpa [Insertion.run] using heq, hok, hsize⟩
  | insertRange first num =>
    obtain ⟨⟨hfirst, hle⟩, hnum⟩ := hacc
    have hint : toInt t.size = t.size := by
      rw [toInt, if_pos (by omega)]
    obtain ⟨t', lev', heq, hok, hsize⟩ := insertLines_spec first.toNat
      (List.range num.toNat) h (by omega) (by simpa [Insertion.lines] using hlt)
    refine ⟨t', lev', ?_, hok, by simpa [Insertion.lines] using hsize⟩
    have hle' : first ≤ toInt (t.count t.root) := hle
    simpa [Insertion.run, insertRange, hfirst, hle', hnum] using heq

theorem foldlM_run_spec {ops : List Insertion} (h : t.Ok lev)
    (hacc : Insertion.AcceptedRun t ops)
    (hlt : t.size + (ops.map Insertion.lines).sum < 2 ^ 26) :
    ∃ t' lev', ops.foldlM (fun t op => op.run t) t = some t' ∧ t'.Ok lev' ∧
      t'.size = t.size + (ops.map Insertion.lines).sum := by
  induction ops generalizing t lev with
  | nil => exact ⟨t, lev, rfl, h, rfl⟩
  | cons op ops ih =>
    rw [List.map_cons, List.sum_cons] at hlt
    obtain ⟨u, lev', hu, hok, hsize⟩ := run_spec h hacc.1 (by omega)
    obtain ⟨t', lev'', heq, hok', hsize'⟩ := ih hok (hacc.2 u hu) (by omega)
    refine ⟨t', lev'', by simpa [hu] using heq, hok', ?_⟩
    rw [hsize', hsize, List.map_cons, List.sum_cons]
    omega

/-- After a run of accepted insertions the tree is in order and has all lines exactly if these are
fewer than `2 ^ 26`. The insertion that makes them as many is accepted too. -/
theorem insertions_iff (ops : List Insertion) (hacc : Insertion.AcceptedRun new ops) :
    (∃ t, ops.foldlM (fun t op => op.run t) new = some t ∧ t.WellFormed ∧
      t.size = 1 + (ops.map Insertion.lines).sum) ↔
    1 + (ops.map Insertion.lines).sum < 2 ^ 26 := by
  refine ⟨?_, fun hlt => ?_⟩
  · rintro ⟨t, heq, -, hsize⟩
    rw [← hsize]
    exact new_countsFit.foldlM_run heq t.root
  · obtain ⟨lev, hok, -⟩ := new_ok
    obtain ⟨t, lev', heq, hok', hsize⟩ := foldlM_run_spec hok hacc hlt
    exact ⟨t, heq, hok'.wellFormed, hsize⟩

/-- Two lines are put after the first one. -/
theorem insertions_iff_two_lines :
    (∃ t, [Insertion.insertRange 1 2].foldlM (fun t op => op.run t) new = some t ∧ t.WellFormed ∧
      t.size = 1 + ([Insertion.insertRange 1 2].map Insertion.lines).sum) ↔
    1 + ([Insertion.insertRange 1 2].map Insertion.lines).sum < 2 ^ 26 :=
  insertions_iff [.insertRange 1 2] ⟨⟨by decide, by decide⟩, fun _ _ => trivial⟩

/-- A text with `2 ^ 26` lines, inserted at once into a new tree. -/
theorem insertRange_too_many :
    Insertion.AcceptedRun new [.insertRange 0 (2 ^ 26 - 1)] ∧
      ¬ ∃ t, new.insertRange 0 (2 ^ 26 - 1) = some t ∧ t.size = 2 ^ 26 := by
  refine ⟨⟨⟨by decide, by decide⟩, fun _ _ => trivial⟩, ?_⟩
  rintro ⟨t, heq, hsize⟩
  have heq' : (Insertion.insertRange 0 (2 ^ 26 - 1)).run new = some t := heq
  have hlt := new_countsFit.run heq' t.root
  exact absurd hsize hlt.ne

end BTree

end Medit
