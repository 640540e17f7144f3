import Medit.TextBtree.Insert

/-!
# Counting marks

`_moo_text_btree_update_n_marks` adds to the number of marks of a line and of every node above.
-/

namespace Medit

open Function (update)
open LevelTree

namespace BTree

variable {t t' : BTree} {lev : Ptr → Option ℕ}

/-- A line has at most the marks of what is above it. -/
theorem Inv.nMarks_le_of_under (h : t.Inv lev) {d p : Ptr} {l : ℕ} {pre post : List Ptr}
    (hu : Under t.links d 0 l p pre post) (hp : lev p = some l) : t.nMarks d ≤ t.nMarks p := by
  have hsum := h.sum_marks hp
  rw [hu.leaves_eq] at hsum
  simp only [leaves_zero, List.map_append, List.map_cons, List.map_nil, List.sum_append,
    List.sum_cons, List.sum_nil] at hsum
  omega

/-- `add` marks come to the line `d`. -/
structure Counts (t t' : BTree) (d : Ptr) (add : ℤ) : Prop where
  eq : t' = { t with nMarks := t'.nMarks }
  nMarks : (t'.nMarks d : ℤ) = t.nMarks d + add
  nMarks_ne : ∀ x ∈ t.lines, x ≠ d → t'.nMarks x = t.nMarks x
  root : (t'.nMarks t.root : ℤ) = t.nMarks t.root + add

theorem Counts.lines {d : Ptr} {add : ℤ} (h : Counts t t' d add) : t'.lines = t.lines := by
  rw [h.eq]
  rfl

/-- `_moo_text_btree_update_n_marks` counts the marks of a line and does not fail. -/
theorem updateNMarks_spec (h : t.Ok lev) {d : Ptr} {add : ℤ} (hd : d ∈ t.lines) (hadd : add ≠ 0)
    (hge : 0 ≤ t.nMarks d + add) (hlt : t.nMarks t.root + add < 2 ^ 31) :
    ∃ t', t.updateNMarks d add = some t' ∧ t'.Ok lev ∧ Counts t t' d add := by
  have hld := h.mem_lines_iff.1 hd
  have hgap : SumsTo t.links lev (markCount t.nMarks) (some d) add := fun p l hp => by
    have hdp : some d ≠ some p := by
      rintro ⟨rfl⟩
      simp [hld] at hp
    simpa [hdp] using h.marks p l hp
  obtain ⟨m, hexec, hm, hmd, hsame⟩ := addMarks_spec h.shape (t.depth + 2) t.nMarks hadd hgap hld
    (fun {p l pre post} hp hu => by
      have h1 := h.nMarks_le_of_under hu hp
      have h2 := h.nMarks_le hp
      have h3 := h.nMarks_lt
      omega) (Nat.le_refl _)
  have hroot : (m t.root : ℤ) = t.nMarks t.root + add := by
    have hsum : (t.lines.map (markCount t.nMarks 0)).sum = t.nMarks t.root :=
      h.marks.sum_leaves h.shape h.shape.root_lev
    have hsum' : (t.lines.map (markCount m 0)).sum = m t.root :=
      hm.sum_leaves h.shape h.shape.root_lev
    have hmap : (t.lines.erase d).map (markCount m 0) = (t.lines.erase d).map (markCount t.nMarks 0) :=
      List.map_congr_left fun x hx => by
        obtain ⟨hxd, hx⟩ := h.nodup_lines.mem_erase_iff.1 hx
        have := hsame x hxd fun l hl => by simpa [h.mem_lines_iff.1 hx] using hl.symm
        simp [this]
    have herase := congrArg List.sum hmap
    rw [sum_map_erase _ hd, sum_map_erase _ hd, hsum, hsum', markCount_apply, markCount_apply,
      hmd] at herase
    omega
  refine ⟨{ t with nMarks := m }, hexec, ⟨⟨⟨h.shape, h.isBottom, h.fresh⟩, h.counts, hm, h.count_lt,
    ?_⟩, h.filled⟩, rfl, hmd, fun x hx hxd => hsame x hxd fun l hl => ?_, hroot⟩
  · show m t.root < 2 ^ 31
    omega
  · simpa [h.mem_lines_iff.1 hx] using hl.symm

end BTree

end Medit
