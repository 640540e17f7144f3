import Medit.Fold.Links
import Medit.Fold.Forest

/-!
# Removing a fold
-/

namespace Medit

open LinkedForest LinkedForest.Forest

namespace FoldTree

variable {t u : FoldTree} {p q c last : Option FoldPtr} {x y : FoldPtr} {f k r : Forest FoldPtr}
  {n m : ℕ}

/-- The children of a fold with another parent. -/
def withParent (t : FoldTree) (xs : List FoldPtr) (p : Option FoldPtr) : FoldTree :=
  { t with parent := fun y => if y ∈ xs then p else t.parent y }

theorem reparent_spec (hl : Linked t.heap (some x) q k) (hy : k.head = some y)
    (hnd : k.nodes.Nodup) (hx : x ∉ k.nodes) (hn : k.tops.length ≤ n) :
    ∃ l, k.lastOr none = some l ∧
      t.reparent x n y = some (t.withParent k.tops (t.parent x), l) := by
  induction k generalizing t q y n with
  | nil => simp at hy
  | node z k' r _ ihr =>
    obtain rfl : z = y := by simpa using hy
    obtain ⟨n, rfl⟩ := Nat.exists_eq_succ_of_ne_zero (Nat.ne_zero_of_lt hn)
    obtain ⟨hz, -, hr⟩ := hl
    simp only [heap_cell, Cell.mk.injEq] at hz
    simp only [nodes_node, List.nodup_cons, List.mem_append, List.mem_cons, not_or] at hnd hx
    have hone : { t with parent := assign t.parent (some z) (t.parent x) } =
        t.withParent [z] (t.parent x) := by
      simp [withParent, assign, funext_iff, eq_comm]
    have hnext : (t.withParent [z] (t.parent x)).next z = r.head := hz.2.2.1
    rw [reparent, if_pos hz.1, hone]
    simp only [hnext]
    cases r with
    | nil => exact ⟨z, rfl, rfl⟩
    | node w k'' r' =>
      have hr' : Linked (t.withParent [z] (t.parent x)).heap (some x) (some z)
          (node w k'' r') := hr.congr fun y hy => by
        have hne : y ≠ z := fun he => hnd.1.2 (he ▸ hy)
        simp [heap, withParent, hne]
      obtain ⟨l, hl, heq⟩ := ihr (n := n) hr' rfl (List.nodup_append.1 hnd.2).2.1 hx.2.2
        (by simpa using hn)
      refine ⟨l, hl, ?_⟩
      rw [head_node]
      simp only [heq]
      simp only [withParent, Option.some.injEq, Prod.mk.injEq, tops_node, List.mem_cons]
      grind

theorem cell_unlink (hnx : t.next x ≠ some x) (hcx : c ≠ some x) (hlx : last ≠ some x)
    (hpar : p ≠ some x) :
    (t.unlink x c last m p).heap.cell y =
      ⟨t.parent y,
        if c = some y then t.prev x
        else if t.next x = some y then (if last.isSome then last else t.prev x) else t.prev y,
        if t.prev x = some y then (if c.isSome then c else t.next x)
        else if last = some y then t.next x else t.next y,
        if p = some y ∧ some x = t.first p then (if c.isSome then c else t.next x)
        else t.children y,
        if p = some y then t.nChildren y + m - 1 else t.nChildren y⟩ := by
  rcases p with _ | a
  all_goals
    simp only [unlink, heap, setFirst, setCount, first, assign]
    grind

theorem heap_first_unlink : (t.unlink x c last m p).heap.first =
    if p = none ∧ some x = t.folds then (if c.isSome then c else t.next x) else t.folds := by
  rcases p with _ | a <;> rfl

theorem heap_count_unlink : (t.unlink x c last m p).heap.count =
    if p = none then t.nFolds + m - 1 else t.nFolds := rfl

/-- What `_moo_fold_tree_remove` does besides the links. -/
structure Removed (t u : FoldTree) (x : FoldPtr) : Prop where
  start : u.start = t.start
  stop : u.stop = t.stop
  collapsed : u.collapsed = t.collapsed
  deleted : u.deleted = assign t.deleted (some x) true
  fresh : u.fresh = t.fresh
  buffer : u.buffer = t.buffer

theorem detach_eq (hp : Placed t.heap p q (node x k r) []) (hn : k.tops.length ≤ t.rounds) :
    t.detach x = some ((t.withParent k.tops p).unlink x k.head (k.lastOr none) k.tops.length p) := by
  have hcell := hp.cell_head
  simp only [heap_cell, Cell.mk.injEq] at hcell
  obtain ⟨hpar, -, -, hkids, hcount⟩ := hcell
  have hx : x ∉ k.nodes := fun hx => hp.notMem_kids (List.mem_append_right _ hx)
  cases k with
  | nil =>
    have ht : t.withParent [] p = t := by simp [withParent]
    simp only [detach, hkids, head_nil, hcount, hpar, tops_nil, ht, lastOr_nil]
  | node y k' r' =>
    obtain ⟨l, hl, heq⟩ := reparent_spec hp.linked.2.1 rfl hp.kids.nodes_nodup hx hn
    rw [hl]
    simp only [detach, hkids, head_node, heq, hcount, hpar, Option.map_some]

theorem detach_spec (hp : Placed t.heap p q (node x k r) []) (hn : k.tops.length ≤ t.rounds) :
    ∃ u, t.detach x = some u ∧ Removed t u x ∧ Replaced t.heap u.heap p q (node x k r)
      (k.append r) (t.heap.countOf p + k.tops.length - 1) [] := by
  refine ⟨_, detach_eq hp hn, by constructor <;> rfl, ?_⟩
  have hcell := hp.cell_head
  simp only [heap_cell, Cell.mk.injEq] at hcell
  obtain ⟨-, hprev, hnext, -, -⟩ := hcell
  obtain ⟨hxr, hxk, hkr⟩ := hp.notMem
  have hnx : t.next x ≠ some x := fun he => by
    rw [hnext] at he
    exact hxr (List.mem_append_right _ (mem_nodes_of_head he))
  have hcx : k.head ≠ some x := fun he => (hxk x (mem_nodes_of_head he)).1 rfl
  have hlx : k.lastOr none ≠ some x := fun he =>
    (hxk x (tops_subset (mem_tops_of_lastOr he))).1 rfl
  have hpx : p ≠ some x := hp.parent_notMem x (by simp)
  have hcells (y : FoldPtr) : ((t.withParent k.tops p).unlink x k.head (k.lastOr none)
      k.tops.length p).heap.cell y = _ := cell_unlink hnx hcx hlx hpx
  have hslot : (t.withParent k.tops p).first p = t.heap.slot p none := by
    cases p <;> rfl
  have hfirst : some x = t.heap.slot p none ↔ q = none := by rw [eq_comm, hp.first_iff]
  have hcnext : (if k.head.isSome then k.head else t.next x) = (k.append r).head := by
    rw [head_append, hnext]
    cases k.head <;> rfl
  have hwnext : (t.withParent k.tops p).next x = t.next x := rfl
  simp only [hslot, hfirst, hwnext, hcnext] at hcells
  simp only [withParent, hprev, hnext] at hcells
  refine hp.splice (fun y hy => ?_) (fun y hy => ?_) (fun y hy => ?_) ?_ ?_
  · have hmem : y ∈ [] ++ (node x k r).nodes := by simp [hy]
    have hyr : r.head ≠ some y := fun he =>
      (hxk y hy).2 (List.mem_append_right _ (mem_nodes_of_head he))
    rw [withParent, hcells]
    simp only [hyr, hp.parent_notMem y hmem, hp.prev_notMem y hmem, heap_cell, false_and, if_false]
    split
    · rfl
    · next htop =>
      rw [if_neg fun he => htop (head_mem_tops he), if_neg fun he => htop (mem_tops_of_lastOr he)]
  · have hmem : y ∈ [] ++ (node x k r).nodes := by simp [hy]
    have hyk : y ∉ k.tops := fun hk => (hxk y (tops_subset hk)).2 (List.mem_append_right _ hy)
    have hkh : k.head ≠ some y := fun he => hyk (head_mem_tops he)
    have hkl : k.lastOr none ≠ some y := fun he => hyk (mem_tops_of_lastOr he)
    have hlast : (if (k.lastOr none).isSome then k.lastOr none else q) = k.lastOr q := by
      rw [lastOr_eq_or (q := q)]
      cases k.lastOr none <;> rfl
    rw [withParent, hcells]
    simp only [hyk, hkh, hkl, hlast, hp.parent_notMem y hmem, hp.prev_notMem y hmem, heap_cell,
      false_and, if_false]
    split <;> rfl
  · simp only [nodes_node, List.mem_cons, List.mem_append, not_or] at hy
    have hyr : r.head ≠ some y := fun he => hy.2.2 (mem_nodes_of_head he)
    have hyk : y ∉ k.tops := fun hk => hy.2.1 (tops_subset hk)
    have hkh : k.head ≠ some y := fun he => hyk (head_mem_tops he)
    have hkl : k.lastOr none ≠ some y := fun he => hyk (mem_tops_of_lastOr he)
    have hcount : p = some y → t.heap.countOf p = t.nChildren y := by
      rintro rfl
      rfl
    rw [withParent, hcells]
    simp only [hyk, hkh, hkl, hyr, heap_cell, Heap.put, if_false]
    grind
  · rw [heap_first_unlink]
    have : p = none → t.heap.slot p none = t.folds := by
      rintro rfl
      rfl
    simp only [Heap.put, hwnext, hcnext]
    simp only [withParent]
    grind [heap]
  · rw [heap_count_unlink]
    cases p <;> rfl

end FoldTree

end Medit
