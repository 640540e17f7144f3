import Medit.Fold.Insert
import Medit.Fold.Remove
import Medit.Fold.Expand

/-!
# The fold operations on a linked tree
-/

namespace Medit

open LinkedForest LinkedForest.Forest

namespace FoldTree

variable {t u : FoldTree} {p q o : Option FoldPtr} {x y : FoldPtr} {f g k r : Forest FoldPtr}
  {firstLine lastLine : ℤ} {n m N : ℕ}

/-- The live folds of the tree are the forest `f`. -/
structure Holds (t : FoldTree) (f : Forest FoldPtr) : Prop where
  rooted : Rooted t.heap f
  lt_fresh : ∀ x ∈ f.nodes, x < t.fresh
  live : ∀ x ∈ f.nodes, t.deleted x = false

/-- The two trees differ in what is collapsed and what is visible only. -/
structure SameShape (t u : FoldTree) : Prop where
  eq : u = { t with collapsed := u.collapsed, buffer := u.buffer }
  lines : u.buffer.lines = t.buffer.lines

namespace SameShape

theorem refl : SameShape t t := ⟨rfl, rfl⟩

theorem heap (h : SameShape t u) : u.heap = t.heap := by
  rw [h.eq]
  rfl

theorem start (h : SameShape t u) : u.start = t.start := by rw [h.eq]
theorem stop (h : SameShape t u) : u.stop = t.stop := by rw [h.eq]
theorem deleted (h : SameShape t u) : u.deleted = t.deleted := by rw [h.eq]
theorem fresh (h : SameShape t u) : u.fresh = t.fresh := by rw [h.eq]

theorem trans {v : FoldTree} (h : SameShape t u) (h' : SameShape u v) : SameShape t v :=
  ⟨by rw [h'.eq, h.eq], h'.lines.trans h.lines⟩

theorem holds (h : SameShape t u) (ht : t.Holds f) : u.Holds f :=
  ⟨h.heap ▸ ht.rooted, h.fresh ▸ ht.lt_fresh, h.deleted ▸ ht.live⟩

end SameShape

namespace Holds

theorem new {b : FoldBuffer} : (FoldTree.new b).Holds nil :=
  ⟨⟨trivial, rfl, rfl, List.nodup_nil⟩, by simp, by simp⟩

theorem length_le (h : t.Holds f) : f.nodes.length ≤ t.fresh := by
  have hsub : f.nodes ⊆ List.range t.fresh := fun x hx => List.mem_range.2 (h.lt_fresh x hx)
  simpa using (List.subperm_of_subset h.rooted.nodup hsub).length_le

theorem fresh_notMem (h : t.Holds f) : t.fresh ∉ f.nodes := fun hx =>
  Nat.lt_irrefl _ (h.lt_fresh _ hx)

/-- Adding a fold where it does not come between two siblings. -/
theorem add (h : t.Holds f) (hlt : firstLine < lastLine) (hnot : ¬ t.Between firstLine lastLine) :
    (addRange t.start t.stop t.fresh firstLine lastLine f = none ∧
      t.add firstLine lastLine = some (t, none)) ∨
    ∃ g u, addRange t.start t.stop t.fresh firstLine lastLine f = some g ∧
      t.add firstLine lastLine = some (u, some t.fresh) ∧ u.Holds g ∧
      NewFold t u firstLine lastLine := by
  have hnd : ([t.fresh] ++ f.nodes).Nodup := List.nodup_cons.2 ⟨h.fresh_notMem, h.rooted.nodup⟩
  have hn : f.nodes.length < t.rounds := by
    have := h.length_le
    unfold rounds
    omega
  obtain hnone | ⟨g, c, u, hg, heq, hrep, hnew⟩ := insertFold_spec (h.rooted.placed hnd) h.live hn
    (Option.some_ne_none t.fresh).symm (fun _ => rfl) hlt
    (h.rooted.first ▸ .start) hnot
  · rw [← h.rooted.first] at hnone
    exact .inl hnone
  · rw [← h.rooted.first] at heq
    have hperm := addRange_nodes hg
    refine .inr ⟨g, u, hg, heq, ⟨hrep.rooted h.rooted (hperm.nodup_iff.2 hnd), ?_, ?_⟩, hnew⟩
    · intro x hx
      rw [hnew.fresh]
      rcases List.mem_cons.1 (hperm.mem_iff.1 hx) with rfl | hx
      · exact Nat.lt_succ_self _
      · exact Nat.lt_succ_of_lt (h.lt_fresh x hx)
    · intro x hx
      rw [hnew.deleted, assign]
      split
      · rfl
      · next hne =>
        rcases List.mem_cons.1 (hperm.mem_iff.1 hx) with rfl | hx
        · exact absurd rfl hne
        · exact h.live x hx

end Holds

/-- The node `x` of a list of siblings, or below them, is taken out. -/
theorem detach_forest (hp : Placed t.heap p q f []) (hx : x ∈ f.nodes)
    (hn : f.nodes.length ≤ t.rounds) : ∃ u c, t.detach x = some u ∧ Removed t u x ∧
      Replaced t.heap u.heap p q f (removeNode x f) c [] := by
  induction f generalizing p q with
  | nil => simp at hx
  | node y k r ihk ihr =>
    obtain ⟨hyr, hyk, hkr⟩ := hp.notMem
    simp only [nodes_node, List.length_cons, List.length_append] at hn
    rw [removeNode]
    split
    · next hyx =>
      subst hyx
      obtain ⟨u, heq, hrem, hrep⟩ := detach_spec hp (Nat.le_trans tops_length_le (by omega))
      exact ⟨u, _, heq, hrem, hrep⟩
    · next hyx =>
      simp only [nodes_node, List.mem_cons, List.mem_append, Ne.symm hyx, false_or] at hx
      rcases hx with hx | hx
      · obtain ⟨u, c, heq, hrem, hrep⟩ := ihk hp.kids hx (by omega)
        rw [removeNode_of_notMem fun hxr => (hyk x hx).2 (List.mem_append_right _ hxr)]
        exact ⟨u, _, heq, hrem, hrep.kids hp⟩
      · obtain ⟨u, c, heq, hrem, hrep⟩ := ihr hp.rest hx (by omega)
        rw [removeNode_of_notMem fun hxk => (hkr x hx).2 (List.mem_append_right _ hxk)]
        exact ⟨u, _, heq, hrem, hrep.rest hp⟩

theorem Holds.detach (h : t.Holds f) (hx : x ∈ f.nodes) : ∃ u, t.detach x = some u ∧
    Removed t u x ∧ u.Holds (removeNode x f) := by
  have hn : f.nodes.length ≤ t.rounds := by
    have := h.length_le
    unfold rounds
    omega
  obtain ⟨u, c, heq, hrem, hrep⟩ := detach_forest (h.rooted.placed (by simpa using h.rooted.nodup)) hx hn
  have hnodes : (removeNode x f).nodes = f.nodes.erase x := removeNode_nodes h.rooted.nodup
  have hnd : (removeNode x f).nodes.Nodup := hnodes ▸ h.rooted.nodup.erase x
  refine ⟨u, heq, hrem, ⟨hrep.rooted h.rooted hnd, fun y hy => ?_, fun y hy => ?_⟩⟩
  · rw [hrem.fresh]
    exact h.lt_fresh y (List.mem_of_mem_erase (hnodes ▸ hy))
  · rw [hnodes, h.rooted.nodup.mem_erase_iff] at hy
    rw [hrem.deleted, assign, if_neg (fun he => hy.1 (Option.some.inj he).symm), h.live y hy.2]

/-! ## Loops over all folds -/

/-- The loop over the folds of a list of siblings, and those below them, when it goes on with `o`
after them. -/
theorem foreach_forest {xs : List FoldPtr} (hl : Linked t.heap p q f) (hf : f ≠ nil)
    (hup : ∀ w n, t.parent w = p → N ≤ n → t.foreachUp n w = some o)
    (hN : N + f.nodes.length ≤ t.rounds) (hrest : t.foreach m o = some xs) :
    t.foreach (f.nodes.length + m) f.head = some (f.nodes ++ xs) := by
  induction f generalizing p q o m N xs with
  | nil => exact absurd rfl hf
  | node x k r ihk ihr =>
    obtain ⟨hx, hk, hr⟩ := hl
    simp only [heap_cell, Cell.mk.injEq] at hx
    obtain ⟨hpar, -, hnext, hkids, -⟩ := hx
    simp only [nodes_node, List.length_cons, List.length_append] at hN
    have hlen : (node x k r).nodes.length + m = (k.nodes.length + (r.nodes.length + m)) + 1 := by
      simp only [nodes_node, List.length_cons, List.length_append]
      omega
    rw [hlen, head_node, FoldTree.foreach, hkids, hnext]
    cases r with
    | nil =>
      cases k with
      | nil =>
        have hx : t.foreachUp t.rounds x = some o := hup x _ hpar (by omega)
        simp [hx, hrest]
      | node y k' r' =>
        have hup' (w n : ℕ) (hw : t.parent w = some x) (hn : N + 1 ≤ n) :
            t.foreachUp n w = some o := by
          obtain ⟨n, rfl⟩ : ∃ n', n = n' + 1 := ⟨n - 1, by omega⟩
          simpa [foreachUp, hw, hnext] using hup x n hpar (by omega)
        have hkids := ihk (m := m) hk (by simp) hup' (by omega) hrest
        simp only [head_node, head_nil, nodes_nil, List.length_nil, Nat.zero_add] at hkids ⊢
        rw [hkids, Option.map_some, nodes_node (x := x), nodes_nil, List.append_nil, List.cons_append]
    | node z k₂ r₂ =>
      have hafter := ihr hr (by simp) hup (by omega) hrest
      cases k with
      | nil => simpa using hafter
      | node y k' r' =>
        have hup' (w n : ℕ) (hw : t.parent w = some x) (hn : 1 ≤ n) :
            t.foreachUp n w = some (some z) := by
          obtain ⟨n, rfl⟩ : ∃ n', n = n' + 1 := ⟨n - 1, by omega⟩
          simp [foreachUp, hw, hnext]
        have hkids := ihk hk (by simp) hup' (by omega) hafter
        simp only [head_node] at hkids ⊢
        rw [hkids, Option.map_some, nodes_node (x := x), List.cons_append, List.append_assoc]

/-- `MOO_FOLD_FOREACH` visits the live folds, in order. -/
theorem Holds.foreach (h : t.Holds f) : t.foreach t.rounds t.folds = some f.nodes := by
  have hn : f.nodes.length + 1 ≤ t.rounds := by
    have := h.length_le
    unfold rounds
    omega
  have hfirst : t.folds = f.head := h.rooted.first
  by_cases hf : f = nil
  · simp [hfirst, hf, FoldTree.foreach]
  · have hup (w n : ℕ) (hw : t.parent w = none) (hn : 1 ≤ n) : t.foreachUp n w = some none := by
      obtain ⟨n, rfl⟩ : ∃ n', n = n' + 1 := ⟨n - 1, by omega⟩
      simp [foreachUp, hw]
    have := foreach_forest (m := t.rounds - f.nodes.length) h.rooted.linked hf hup (by omega)
      (by rw [FoldTree.foreach])
    rw [Nat.add_sub_cancel' (by omega), List.append_nil] at this
    rw [hfirst, this]

end FoldTree

end Medit
