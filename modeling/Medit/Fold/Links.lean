import Medit.Library.LinkedForest
import Medit.Fold.Model

/-!
# The links of the fold tree
-/

namespace Medit

open LinkedForest LinkedForest.Forest

namespace FoldTree

/-- The links of a tree. -/
def heap (t : FoldTree) : Heap FoldPtr where
  cell p := ⟨t.parent p, t.prev p, t.next p, t.children p, t.nChildren p⟩
  first := t.folds
  count := t.nFolds

variable {t u : FoldTree} {p q o last : Option FoldPtr} {x y : FoldPtr} {f k r : Forest FoldPtr}
  {firstLine lastLine : ℤ}

theorem heap_cell : t.heap.cell x =
    ⟨t.parent x, t.prev x, t.next x, t.children x, t.nChildren x⟩ := rfl

theorem first_eq_slot : t.first p = t.heap.slot p none := by
  cases p <;> rfl

/-! ## A new fold before another one or in the end -/

theorem cell_insertBefore_fresh (hpar : p ≠ some t.fresh) (ho : o ≠ some t.fresh)
    (hlast : last ≠ some t.fresh) :
    (t.insertBefore p o last firstLine lastLine).heap.cell t.fresh =
      ⟨p, match o with | some x => t.prev x | none => last, o, none, 0⟩ := by
  rcases o with _ | x
  · rcases last with _ | l <;>
      simp_all [insertBefore, heap, alloc, setFirst, setCount, assign]
  · have hx : x ≠ t.fresh := fun h => ho (by rw [h])
    simp_all [insertBefore, heap, alloc, setFirst, setCount, assign, hx.symm]

theorem cell_insertBefore (hpar : p ≠ some t.fresh) (hlast : last ≠ some t.fresh)
    (hy : t.fresh ≠ y) :
    (t.insertBefore p o last firstLine lastLine).heap.cell y =
      ⟨t.parent y, if o = some y then some t.fresh else t.prev y,
        if o = none ∧ last = some y then some t.fresh else t.next y,
        if p = some y ∧ o = t.first p then some t.fresh else t.children y,
        if p = some y then t.nChildren y + 1 else t.nChildren y⟩ := by
  rcases p with _ | a <;> rcases o with _ | x <;> rcases last with _ | l
  all_goals
    simp only [insertBefore, heap, setFirst, setCount, alloc, first, assign, Option.some.injEq, hy,
      if_false]
    grind

theorem heap_first_insertBefore : (t.insertBefore p o last firstLine lastLine).heap.first =
    if p = none ∧ o = t.folds then some t.fresh else t.folds := by
  rcases p with _ | a <;> rcases o with _ | x <;> rcases last with _ | l <;> rfl

theorem heap_count_insertBefore : (t.insertBefore p o last firstLine lastLine).heap.count =
    if p = none then t.nFolds + 1 else t.nFolds := by
  rcases o with _ | x <;> rcases last with _ | l <;> rfl

/-- A new fold at the head or at the end of a list is well linked. -/
theorem insertBefore_spec (hp : Placed t.heap p q f [t.fresh]) (hlast : last ≠ some t.fresh)
    (hend : f = nil → last = q) (hhead : f ≠ nil → q = none) :
    Replaced t.heap (t.insertBefore p f.head last firstLine lastLine).heap p q f
      (node t.fresh nil f) (t.heap.countOf p + 1) [t.fresh] := by
  have hpar : p ≠ some t.fresh := hp.parent_notMem _ (by simp)
  have hfresh : ∀ y ∈ f.nodes, t.fresh ≠ y := fun y hy he =>
    (List.nodup_cons.1 hp.nodup).1 (he ▸ hy)
  have hhd : f.head ≠ some t.fresh := fun he => hfresh _ (mem_nodes_of_head he) rfl
  have hfirst : f.head = t.first p ↔ q = none := by
    cases f with
    | nil =>
      refine ⟨fun he => ?_, ?_⟩
      · by_contra hq
        obtain ⟨z, hz, -⟩ := hp.first_some hq
        simp [first_eq_slot, hz] at he
      · rintro rfl
        rw [first_eq_slot, hp.slot]
    | node x k r => rw [first_eq_slot, head_node, eq_comm, hp.first_iff]
  refine hp.push ?_ (fun y hy => ?_) (fun y hy => ?_) ?_ ?_
  · rw [cell_insertBefore_fresh hpar hhd hlast]
    cases f with
    | nil => simp [hend rfl]
    | node x k r =>
      have hx : t.prev x = q := by simpa [heap] using congrArg Cell.prev hp.cell_head
      simp [hx]
  · rw [cell_insertBefore hpar hlast (hfresh y hy)]
    have hpy : p ≠ some y := hp.parent_notMem y (by simp [hy])
    have hne : f.head ≠ none := fun he => by simp [head_eq_none.1 he] at hy
    simp only [hpy, hne, false_and, if_false, heap_cell]
    split <;> rfl
  · rw [List.mem_cons, not_or] at hy
    rw [cell_insertBefore hpar hlast (Ne.symm hy.1)]
    have hyhead : f.head ≠ some y := fun he => hy.2 (mem_nodes_of_head he)
    have hnext : f.head = none ∧ last = some y ↔ q = some y := by
      cases f with
      | nil => simp [hend rfl]
      | node => simp [hhead (by simp)]
    have hcount : p = some y → t.heap.countOf p = t.nChildren y := by
      rintro rfl
      rfl
    simp only [Heap.put, heap_cell, hyhead, hnext, hfirst, if_false]
    grind
  · rw [heap_first_insertBefore]
    have : p = none → t.first p = t.folds := by
      rintro rfl
      rfl
    simp only [Heap.put]
    grind [heap]
  · rw [heap_count_insertBefore]
    cases p <;> rfl

/-! ## A new fold around another one -/

theorem cell_insertAround (hpar : p ≠ some t.fresh) (hx : t.fresh ≠ x)
    (hprev : t.prev x ≠ some t.fresh) (hnx : t.next x ≠ some x) (hpx : t.prev x ≠ some x) :
    (t.insertAround p x firstLine lastLine).heap.cell y =
      if t.fresh = y then ⟨p, t.prev x, t.next x, some x, 1⟩
      else if x = y then ⟨some t.fresh, none, none,
        if p = some y ∧ (t.first p = none ∨ some x = t.first p) then some t.fresh
        else t.children y, t.nChildren y⟩
      else ⟨t.parent y, if t.next x = some y then some t.fresh else t.prev y,
        if t.prev x = some y then some t.fresh else t.next y,
        if p = some y ∧ (t.first p = none ∨ some x = t.first p) then some t.fresh
        else t.children y, t.nChildren y⟩ := by
  rcases p with _ | a
  all_goals
    simp only [insertAround, heap, setFirst, alloc, first, assign, Option.some.injEq, hx, if_false]
    grind

theorem heap_first_insertAround : (t.insertAround p x firstLine lastLine).heap.first =
    if p = none ∧ (t.folds = none ∨ some x = t.folds) then some t.fresh else t.folds := by
  rcases p with _ | a <;> rfl

theorem heap_count_insertAround :
    (t.insertAround p x firstLine lastLine).heap.count = t.nFolds := rfl

/-- A new fold around another one is well linked. -/
theorem insertAround_spec (hp : Placed t.heap p q (node x k r) [t.fresh]) :
    Replaced t.heap (t.insertAround p x firstLine lastLine).heap p q (node x k r)
      (node t.fresh (node x k nil) r) (t.heap.countOf p) [t.fresh] := by
  have hpar : p ≠ some t.fresh := hp.parent_notMem _ (by simp)
  have hfresh : ∀ y ∈ (node x k r).nodes, t.fresh ≠ y := fun y hy he =>
    (List.nodup_cons.1 hp.nodup).1 (he ▸ hy)
  have hcell := hp.cell_head
  simp only [heap_cell, Cell.mk.injEq] at hcell
  obtain ⟨-, hprev, hnext, -, -⟩ := hcell
  obtain ⟨hxr, hxk, hkr⟩ := hp.notMem
  have hnx : t.next x ≠ some x := fun he => by
    rw [hnext] at he
    exact hxr (List.mem_append_right _ (mem_nodes_of_head he))
  have hpx : t.prev x ≠ some x := hprev ▸ hp.prev_notMem x (by simp)
  have hpf : t.prev x ≠ some t.fresh := hprev ▸ hp.prev_notMem _ (by simp)
  have hfirst : (t.first p = none ∨ some x = t.first p) ↔ q = none := by
    rw [first_eq_slot, eq_comm (a := some x), hp.first_iff, or_iff_right_iff_imp]
    intro hnone
    by_contra hq
    obtain ⟨z, hz, -⟩ := hp.first_some hq
    simp [hz] at hnone
  have hxf : t.fresh ≠ x := hfresh x (by simp)
  have hcells (y : FoldPtr) : (t.insertAround p x firstLine lastLine).heap.cell y = _ :=
    cell_insertAround hpar hxf hpf hnx hpx
  simp only [hprev, hnext, hfirst] at hcells
  have hkids (y : FoldPtr) (hy : y ∈ k.nodes ∨ y ∈ r.nodes) :
      t.fresh ≠ y ∧ x ≠ y ∧ p ≠ some y ∧ q ≠ some y := by
    have hmem : y ∈ (node x k r).nodes := by simpa using .inr hy
    have hmem' := List.mem_append_right [t.fresh] hmem
    refine ⟨hfresh y hmem, ?_, hp.parent_notMem y hmem', hp.prev_notMem y hmem'⟩
    exact hy.elim (fun hy => (hxk y hy).1) (fun hy => (hkr y hy).1)
  refine hp.wrap ?_ ?_ (fun y hy => ?_) (fun y hy => ?_) (fun y hy => ?_) ?_ ?_
  · rw [hcells, if_pos rfl]
  · have hpx' : p ≠ some x := hp.parent_notMem x (by simp)
    simp [hcells, hxf, hpx', heap_cell]
  · obtain ⟨hyf, hyx, hyp, hyq⟩ := hkids y (.inl hy)
    have hyr : r.head ≠ some y := fun he => (hxk y hy).2 (List.mem_append_right _ (mem_nodes_of_head he))
    simp [hcells, hyf, hyx, hyp, hyq, hyr, heap_cell]
  · obtain ⟨hyf, hyx, hyp, hyq⟩ := hkids y (.inr hy)
    simp only [hcells, hyf, hyx, hyp, hyq, heap_cell, if_false, false_and]
    split <;> rfl
  · simp only [nodes_node, List.mem_cons, List.mem_append, not_or] at hy
    have hyr : r.head ≠ some y := fun he => hy.2.2.2 (mem_nodes_of_head he)
    have hcount : p = some y → t.heap.countOf p = t.nChildren y := by
      rintro rfl
      rfl
    simp only [hcells, Ne.symm hy.1, Ne.symm hy.2.1, hyr, heap_cell, Heap.put, if_false]
    grind
  · rw [heap_first_insertAround]
    have : p = none → t.first p = t.folds := by
      rintro rfl
      rfl
    simp only [Heap.put]
    grind [heap]
  · rw [heap_count_insertAround]
    cases p <;> rfl

end FoldTree

end Medit
