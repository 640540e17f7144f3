import Mathlib.Data.List.Perm.Basic
import Medit.Library.LinkedForest

/-!
# Editing forests

Nodes of a forest are dropped with everything below them, and other forests are put among the
children of a node.

## Main definitions

* `Forest.under` — a node and everything below it.
* `Forest.without` — a forest without some nodes and what is below them.
* `Forest.insertAt` — a forest with another one among the children of a node.
* `Forest.ofTops` — a forest of siblings.

## Main results

* `Forest.mem_without`, `Forest.without_without` — what is left, and dropping twice.
* `Forest.perm_insertAt`, `Forest.insertAt_insertAt` — what is there after an insertion, and
  inserting twice at one place.
* `Forest.tops_kidsOf_insertAt`, `Forest.without_insertAt` — an insertion leaves the other nodes as
  they are, and what it has put in can be dropped again.
-/

namespace LinkedForest.Forest

variable {ι κ : Type*}

/-- The forest with something else at each node. -/
def map (g : ι → κ) : Forest ι → Forest κ
  | nil => nil
  | node x k r => node (g x) (k.map g) (r.map g)

theorem map_congr {g h : ι → κ} {f : Forest ι} (heq : ∀ x ∈ f.nodes, g x = h x) :
    f.map g = f.map h := by
  induction f with
  | nil => rfl
  | node x k r ihk ihr =>
    simp only [nodes_node, List.mem_cons, List.mem_append] at heq
    rw [map, map, heq x (.inl rfl), ihk fun y hy => heq y (.inr (.inl hy)),
      ihr fun y hy => heq y (.inr (.inr hy))]

theorem eq_nil_of_map {g : ι → κ} {f : Forest ι} (h : f.map g = nil) : f = nil := by
  cases f with
  | nil => rfl
  | node x k r => simp [map] at h

theorem eq_node_of_map {g : ι → κ} {f : Forest ι} {d : κ} {s t : Forest κ}
    (h : f.map g = node d s t) :
    ∃ x k r, f = node x k r ∧ g x = d ∧ k.map g = s ∧ r.map g = t := by
  cases f with
  | nil => simp [map] at h
  | node x k r =>
    simp only [map, node.injEq] at h
    exact ⟨x, k, r, rfl, h⟩

theorem map_append {g : ι → κ} {f s : Forest ι} : (f.append s).map g = (f.map g).append (s.map g) := by
  induction f with
  | nil => rfl
  | node x k r _ ihr => simp [map, ihr]

theorem append_assoc {f s t : Forest ι} : (f.append s).append t = f.append (s.append t) := by
  induction f with
  | nil => rfl
  | node x k r _ ihr => simp [ihr]

@[simp] theorem append_nil {f : Forest ι} : f.append nil = f := by
  induction f with
  | nil => rfl
  | node x k r _ ihr => simp [ihr]

/-- The node and everything below it. -/
def under [DecidableEq ι] (x : ι) : Forest ι → List ι
  | nil => []
  | node y k r => if y = x then y :: k.nodes else k.under x ++ r.under x

/-- The children of the node. -/
def kidsOf [DecidableEq ι] (x : ι) : Forest ι → Forest ι
  | nil => nil
  | node y k r => if y = x then k else (k.kidsOf x).append (r.kidsOf x)

/-- The forest without the chosen nodes and what is below them. -/
def without (p : ι → Bool) : Forest ι → Forest ι
  | nil => nil
  | node y k r => if p y then r.without p else node y (k.without p) (r.without p)

/-- The siblings with others among them, from position `i` on. -/
def insertTops : Forest ι → ℕ → Forest ι → Forest ι
  | f, 0, g => g.append f
  | nil, _ + 1, g => g
  | node y k r, i + 1, g => node y k (r.insertTops i g)

/-- The forest with others among the children of the node `x`, from position `i` on. -/
def insertAt [DecidableEq ι] : Forest ι → ι → ℕ → Forest ι → Forest ι
  | nil, _, _, _ => nil
  | node y k r, x, i, g => if y = x then node y (k.insertTops i g) r
    else node y (k.insertAt x i g) (r.insertAt x i g)

/-- Siblings of nodes, each with what is below it. -/
def ofTops : List (ι × Forest ι) → Forest ι
  | [] => nil
  | (x, k) :: l => node x k (ofTops l)

attribute [elab_as_elim] under.induct_unfolding kidsOf.induct_unfolding without.induct_unfolding
  insertTops.induct_unfolding insertAt.induct_unfolding

theorem ofTops_append (l l' : List (ι × Forest ι)) :
    ofTops (l ++ l') = (ofTops l).append (ofTops l') := by
  induction l with
  | nil => rfl
  | cons t l ih => simp [ofTops, ih]

variable {x y z : ι} {f g h k r : Forest ι} {p q : ι → Bool} {i : ℕ}

/-! ## Under a node -/

section under

variable [DecidableEq ι]

theorem under_subset : f.under x ⊆ f.nodes := by
  fun_induction under x f <;> grind [nodes_node]

theorem under_of_not_mem (hx : x ∉ f.nodes) : f.under x = [] := by
  fun_induction under x f <;> grind [nodes_node]

theorem mem_under_self (hx : x ∈ f.nodes) : x ∈ f.under x := by
  fun_induction under x f <;> grind [nodes_nil, nodes_node]

theorem under_sublist : (f.under x).Sublist f.nodes := by
  fun_induction under x f with
  | case1 => simp
  | case2 k r => simp
  | case3 y k r hne ihk ihr => exact (ihk.append ihr).cons _

/-- What is under a node that is under another is under the other, too. -/
theorem under_trans (hf : f.nodes.Nodup) (hy : y ∈ f.under x) (hz : z ∈ f.under y) :
    z ∈ f.under x := by
  have hsub := @under_subset ι
  fun_induction under x f <;> grind [nodes_node, under, under_of_not_mem]

theorem under_append (hx : x ∉ g.nodes) : (g.append f).under x = f.under x := by
  induction g with
  | nil => rfl
  | node y k r _ ihr =>
    simp only [nodes_node, List.mem_cons, List.mem_append, not_or] at hx
    rw [node_append, under, if_neg (Ne.symm hx.1), under_of_not_mem hx.2.1, ihr hx.2.2]
    rfl

theorem under_append_left (hx : x ∉ g.nodes) : (f.append g).under x = f.under x := by
  induction f with
  | nil => exact under_of_not_mem hx
  | node y k r _ ihr => rw [node_append, under, under, ihr]

end under

/-! ## Dropping nodes -/

theorem without_sublist : (f.without p).nodes.Sublist f.nodes := by
  fun_induction without p f with
  | case1 => simp
  | case2 y k r hy ih => exact (ih.trans (List.sublist_append_right _ _)).cons _
  | case3 y k r hy ihk ihr => exact (ihk.append ihr).cons_cons _

theorem without_subset : (f.without p).nodes ⊆ f.nodes := without_sublist.subset

/-- What is left are the nodes with no chosen one above them. -/
theorem mem_without [DecidableEq ι] (hf : f.nodes.Nodup) :
    z ∈ (f.without p).nodes ↔ z ∈ f.nodes ∧ ∀ x, p x → z ∉ f.under x := by
  have hsub := @under_subset ι
  fun_induction without p f <;> grind [nodes_node, under, under_of_not_mem]

theorem under_without [DecidableEq ι] (hf : f.nodes.Nodup) : (f.without p).under x ⊆ f.under x := by
  have hsub := @without_subset ι
  fun_induction without p f <;>
    grind [nodes_node, List.nodup_cons, List.nodup_append, under, under_of_not_mem]

theorem without_without : (f.without p).without q = f.without fun x => p x || q x := by
  fun_induction without p f <;> grind [without]

theorem without_of_forall (hp : ∀ x ∈ f.nodes, p x = false) : f.without p = f := by
  fun_induction without p f <;> grind [nodes_node]

theorem without_congr (hpq : ∀ x ∈ f.nodes, p x = q x) : f.without p = f.without q := by
  fun_induction without p f <;> grind [nodes_node, without]

theorem tops_without_subset : (f.without p).tops ⊆ f.tops := by
  fun_induction without p f <;> grind [tops_node]

/-! ## Putting nodes -/

theorem perm_insertTops : (f.insertTops i g).nodes.Perm (g.nodes ++ f.nodes) := by
  fun_induction insertTops f i g with
  | case1 f g => simp
  | case2 i g => simp
  | case3 y k r i g ih =>
    have hr : (k.nodes ++ (r.insertTops i g).nodes).Perm (g.nodes ++ (k.nodes ++ r.nodes)) :=
      (ih.append_left _).trans (List.perm_append_comm_assoc ..)
    exact (hr.cons y).trans List.perm_middle.symm

theorem sublist_insertTops : f.nodes.Sublist (f.insertTops i g).nodes := by
  fun_induction insertTops f i g with
  | case1 f g => simp
  | case2 i g => simp
  | case3 y k r i g ih => exact (ih.append_left _).cons_cons _

/-- Those that come first are put last. -/
theorem insertTops_insertTops (hi : i ≤ f.tops.length) :
    (f.insertTops i h).insertTops i g = f.insertTops i (g.append h) := by
  induction f generalizing i with
  | nil =>
    obtain rfl : i = 0 := by simpa using hi
    simp [insertTops]
  | node y k r _ ihr =>
    cases i with
    | zero => simp [insertTops, append_assoc]
    | succ i => simp [insertTops, ihr (by simpa using hi)]

@[simp] theorem insertTops_nil : f.insertTops i nil = f := by
  induction f generalizing i <;> cases i <;> simp_all [insertTops]

variable [DecidableEq ι]

@[simp] theorem insertAt_nil : f.insertAt x i nil = f := by
  induction f <;> simp_all [insertAt]

theorem insertAt_of_not_mem (hx : x ∉ f.nodes) : f.insertAt x i g = f := by
  fun_induction insertAt f x i g <;> grind [nodes_node]

theorem perm_insertAt (hf : f.nodes.Nodup) (hx : x ∈ f.nodes) :
    (f.insertAt x i g).nodes.Perm (g.nodes ++ f.nodes) := by
  fun_induction insertAt f x i g with
  | case1 => simp at hx
  | case2 k r x i g =>
    have hr := (perm_insertTops (f := k) (i := i) (g := g)).append_right r.nodes
    rw [List.append_assoc] at hr
    exact (hr.cons x).trans List.perm_middle.symm
  | case3 y k r x i g hne ihk ihr =>
    simp only [nodes_node, List.nodup_cons, List.nodup_append] at hf
    have hr : ((k.insertAt x i g).nodes ++ (r.insertAt x i g).nodes).Perm
        (g.nodes ++ (k.nodes ++ r.nodes)) := by
      by_cases hk : x ∈ k.nodes
      · rw [insertAt_of_not_mem fun hr => hf.2.2.2 x hk x hr rfl, ← List.append_assoc]
        exact (ihk hf.2.1 hk).append_right _
      · rw [insertAt_of_not_mem hk]
        have hr : x ∈ r.nodes := by grind [nodes_node]
        exact ((ihr hf.2.2.1 hr).append_left _).trans (List.perm_append_comm_assoc ..)
    exact (hr.cons y).trans List.perm_middle.symm

theorem mem_insertAt (hf : f.nodes.Nodup) (hx : x ∈ f.nodes) :
    z ∈ (f.insertAt x i g).nodes ↔ z ∈ g.nodes ∨ z ∈ f.nodes := by
  rw [(perm_insertAt hf hx).mem_iff, List.mem_append]

theorem nodup_insertAt (hf : f.nodes.Nodup) (hx : x ∈ f.nodes) (hg : g.nodes.Nodup)
    (hfg : ∀ y ∈ g.nodes, y ∉ f.nodes) : (f.insertAt x i g).nodes.Nodup := by
  rw [(perm_insertAt hf hx).nodup_iff, List.nodup_append]
  exact ⟨hg, hf, fun y hy z hz hyz => hfg y hy (hyz ▸ hz)⟩

theorem sublist_insertAt : f.nodes.Sublist (f.insertAt x i g).nodes := by
  fun_induction insertAt f x i g with
  | case1 => simp
  | case2 k r x i g => exact (sublist_insertTops.append_right _).cons_cons _
  | case3 y k r x i g hne ihk ihr => exact (ihk.append ihr).cons_cons _

theorem kidsOf_of_not_mem (hx : x ∉ f.nodes) : f.kidsOf x = nil := by
  fun_induction kidsOf x f <;> grind [nodes_node, nil_append]

theorem kidsOf_subset : (f.kidsOf x).nodes ⊆ f.nodes := by
  fun_induction kidsOf x f <;> grind [nodes_node, nodes_append]

theorem kidsOf_insertAt (hf : f.nodes.Nodup) (hx : x ∈ f.nodes) :
    (f.insertAt x i g).kidsOf x = (f.kidsOf x).insertTops i g := by
  fun_induction insertAt f x i g with
  | case1 => simp at hx
  | case2 k r x i g => simp [kidsOf]
  | case3 y k r x i g hne ihk ihr =>
    simp only [nodes_node, List.nodup_cons, List.nodup_append] at hf
    simp only [kidsOf, if_neg hne]
    by_cases hk : x ∈ k.nodes
    · have hr : x ∉ r.nodes := fun hr => hf.2.2.2 x hk x hr rfl
      simp [insertAt_of_not_mem hr, kidsOf_of_not_mem hr, ihk hf.2.1 hk]
    · simp [insertAt_of_not_mem hk, kidsOf_of_not_mem hk, ihr hf.2.2.1 (by grind [nodes_node])]

theorem insertAt_insertAt (hf : f.nodes.Nodup) (hh : x ∉ h.nodes)
    (hi : i ≤ (f.kidsOf x).tops.length) :
    (f.insertAt x i h).insertAt x i g = f.insertAt x i (g.append h) := by
  fun_induction insertAt f x i h with
  | case1 => rfl
  | case2 k r x i h =>
    simp only [kidsOf, if_true] at hi
    simp [insertAt, insertTops_insertTops hi]
  | case3 y k r x i h hne ihk ihr =>
    simp only [nodes_node, List.nodup_cons, List.nodup_append] at hf
    simp only [kidsOf, if_neg hne, tops_append, List.length_append] at hi
    simp only [insertAt, if_neg hne]
    by_cases hk : x ∈ k.nodes
    · have hr : x ∉ r.nodes := fun hr => hf.2.2.2 x hk x hr rfl
      rw [kidsOf_of_not_mem hr, tops_nil, List.length_nil, Nat.add_zero] at hi
      rw [ihk hf.2.1 hh hi, insertAt_of_not_mem hr, insertAt_of_not_mem hr, insertAt_of_not_mem hr]
    · rw [kidsOf_of_not_mem hk, tops_nil, List.length_nil, Nat.zero_add] at hi
      rw [ihr hf.2.2.1 hh hi, insertAt_of_not_mem hk, insertAt_of_not_mem hk, insertAt_of_not_mem hk]

omit [DecidableEq ι] in
theorem tops_insertTops (hi : i ≤ f.tops.length) :
    (f.insertTops i g).tops = f.tops.take i ++ g.tops ++ f.tops.drop i := by
  induction f generalizing i with
  | nil =>
    obtain rfl : i = 0 := by simpa using hi
    simp [insertTops]
  | node y k r _ ihr =>
    cases i with
    | zero => simp [insertTops]
    | succ i => simp [insertTops, ihr (by simpa using hi)]

theorem under_insertTops_old (hy : y ∉ g.nodes) : (f.insertTops i g).under y = f.under y := by
  fun_induction insertTops f i g <;> grind [under, under_append, under_of_not_mem]

theorem under_insertTops_new (hy : y ∉ f.nodes) : (f.insertTops i g).under y = g.under y := by
  fun_induction insertTops f i g <;>
    grind [nodes_node, under, under_append_left, under_of_not_mem]

/-- Nothing comes under the new nodes. -/
theorem under_insertAt_new (hf : f.nodes.Nodup) (hx : x ∈ f.nodes) (hy : y ∉ f.nodes) :
    (f.insertAt x i g).under y = g.under y := by
  fun_induction insertAt f x i g with
  | case1 => simp at hx
  | case2 k r x i g =>
    simp only [nodes_node, List.mem_cons, List.mem_append, not_or] at hy
    rw [under, if_neg (Ne.symm hy.1), under_insertTops_new hy.2.1, under_of_not_mem hy.2.2,
      List.append_nil]
  | case3 t k r x i g hne ihk ihr =>
    simp only [nodes_node, List.nodup_cons, List.nodup_append] at hf
    simp only [nodes_node, List.mem_cons, List.mem_append, not_or] at hy
    rw [under, if_neg (Ne.symm hy.1)]
    by_cases hk : x ∈ k.nodes
    · have hr : x ∉ r.nodes := fun hr => hf.2.2.2 x hk x hr rfl
      rw [insertAt_of_not_mem hr, under_of_not_mem hy.2.2, ihk hf.2.1 hk hy.2.1, List.append_nil]
    · rw [insertAt_of_not_mem hk, under_of_not_mem hy.2.1,
        ihr hf.2.2.1 (by grind [nodes_node]) hy.2.2, List.nil_append]

/-- The new nodes come under those above their place. -/
theorem mem_under_insertAt (hf : f.nodes.Nodup) (hy : y ∉ g.nodes) :
    z ∈ (f.insertAt x i g).under y ↔ z ∈ f.under y ∨ z ∈ g.nodes ∧ x ∈ f.under y := by
  have hsub := @under_subset ι
  fun_induction insertAt f x i g with
  | case1 => simp [under]
  | case2 k r x i g =>
    have hmem := (perm_insertTops (f := k) (i := i) (g := g)).mem_iff (a := z)
    simp only [nodes_node, List.nodup_cons, List.nodup_append] at hf
    simp only [under, under_insertTops_old hy]
    split <;> grind
  | case3 t k r x i g hne ihk ihr =>
    simp only [nodes_node, List.nodup_cons, List.nodup_append] at hf
    have hmem := mem_insertAt (i := i) (g := g) (z := z) (x := x) hf.2.1
    have hnot := insertAt_of_not_mem (f := k) (x := x) (i := i) (g := g)
    simp only [under]
    split <;> grind

/-- A node is not under one of its children. -/
theorem not_mem_under_of_kidsOf (hf : f.nodes.Nodup) (hy : y ∈ (f.kidsOf x).nodes) :
    x ∉ f.under y := by
  have hsub := @under_subset ι
  have hkids := @kidsOf_subset ι
  fun_induction kidsOf x f <;>
    grind [nodes_node, nodes_nil, nodes_append, List.nodup_cons, List.nodup_append, under,
      under_of_not_mem]

theorem kidsOf_without (hf : f.nodes.Nodup) (hx : x ∈ (f.without p).nodes) :
    (f.without p).kidsOf x = (f.kidsOf x).without p := by
  have hsub := @without_subset ι
  fun_induction without p f with
  | case1 => rfl
  | case2 y k r hy ih =>
    simp only [nodes_node, List.nodup_cons, List.nodup_append, List.mem_append, not_or] at hf
    have hr : x ∈ r.nodes := hsub hx
    have hyx : y ≠ x := fun h => hf.1.2 (h ▸ hr)
    rw [ih hf.2.2.1 hx, kidsOf, if_neg hyx, kidsOf_of_not_mem fun hk => hf.2.2.2 x hk x hr rfl,
      nil_append]
  | case3 y k r hy ihk ihr =>
    simp only [nodes_node, List.nodup_cons, List.nodup_append, List.mem_append, not_or] at hf
    simp only [nodes_node, List.mem_cons, List.mem_append] at hx
    simp only [kidsOf]
    split
    · rfl
    case isFalse hyx =>
      rcases hx with hx | hx | hx
      · exact absurd hx.symm hyx
      · have hr : x ∉ r.nodes := fun hr => hf.2.2.2 x (hsub hx) x hr rfl
        rw [ihk hf.2.1 hx, kidsOf_of_not_mem hr, kidsOf_of_not_mem fun h => hr (hsub h), append_nil,
          append_nil]
      · have hk : x ∉ k.nodes := fun hk => hf.2.2.2 x hk x (hsub hx) rfl
        rw [ihr hf.2.2.1 hx, kidsOf_of_not_mem hk, kidsOf_of_not_mem fun h => hk (hsub h), nil_append,
          nil_append]

/-- A node and what is below its children. -/
theorem under_eq (hf : f.nodes.Nodup) (hx : x ∈ f.nodes) : f.under x = x :: (f.kidsOf x).nodes := by
  fun_induction under x f with
  | case1 => simp at hx
  | case2 k r => simp [kidsOf]
  | case3 y k r hne ihk ihr =>
    simp only [nodes_node, List.nodup_cons, List.nodup_append] at hf
    rw [kidsOf, if_neg hne]
    by_cases hk : x ∈ k.nodes
    · have hr : x ∉ r.nodes := fun hr => hf.2.2.2 x hk x hr rfl
      rw [under_of_not_mem hr, kidsOf_of_not_mem hr, append_nil, List.append_nil, ihk hf.2.1 hk]
    · rw [under_of_not_mem hk, kidsOf_of_not_mem hk, nil_append, List.nil_append,
        ihr hf.2.2.1 (by grind [nodes_node])]

/-! ## Below the other nodes -/

theorem tops_insertAt : (f.insertAt x i g).tops = f.tops := by
  fun_induction insertAt f x i g <;> simp_all

theorem kidsOf_append_left (hy : y ∉ g.nodes) : (f.append g).kidsOf y = f.kidsOf y := by
  induction f with
  | nil => exact kidsOf_of_not_mem hy
  | node z k r _ ihr => rw [node_append, kidsOf, kidsOf, ihr]

theorem kidsOf_append_right (hy : y ∉ f.nodes) : (f.append g).kidsOf y = g.kidsOf y := by
  induction f with
  | nil => rfl
  | node z k r _ ihr =>
    simp only [nodes_node, List.mem_cons, List.mem_append, not_or] at hy
    rw [node_append, kidsOf, if_neg (Ne.symm hy.1), kidsOf_of_not_mem hy.2.1, ihr hy.2.2, nil_append]

theorem kidsOf_insertTops_old (hy : y ∉ g.nodes) : (f.insertTops i g).kidsOf y = f.kidsOf y := by
  fun_induction insertTops f i g with
  | case1 f g => exact kidsOf_append_right hy
  | case2 i g => exact kidsOf_of_not_mem hy
  | case3 z k r i g ih => rw [kidsOf, kidsOf, ih hy]

theorem kidsOf_insertTops_new (hy : y ∉ f.nodes) : (f.insertTops i g).kidsOf y = g.kidsOf y := by
  fun_induction insertTops f i g with
  | case1 f g => exact kidsOf_append_left hy
  | case2 i g => rfl
  | case3 z k r i g ih =>
    simp only [nodes_node, List.mem_cons, List.mem_append, not_or] at hy
    rw [kidsOf, if_neg (Ne.symm hy.1), kidsOf_of_not_mem hy.2.1, ih hy.2.2, nil_append]

/-- Below the other nodes the siblings stay. -/
theorem tops_kidsOf_insertAt (hyx : y ≠ x) (hy : y ∉ g.nodes) :
    ((f.insertAt x i g).kidsOf y).tops = (f.kidsOf y).tops := by
  fun_induction insertAt f x i g with
  | case1 => rfl
  | case2 k r x i g =>
    rw [kidsOf, kidsOf, if_neg hyx.symm, if_neg hyx.symm, kidsOf_insertTops_old hy]
  | case3 t k r x i g hne ihk ihr =>
    simp only [kidsOf]
    split
    · exact tops_insertAt
    · rw [tops_append, tops_append, ihk hyx hy, ihr hyx hy]

theorem kidsOf_insertAt_new (hf : f.nodes.Nodup) (hx : x ∈ f.nodes) (hy : y ∉ f.nodes) :
    (f.insertAt x i g).kidsOf y = g.kidsOf y := by
  fun_induction insertAt f x i g with
  | case1 => simp at hx
  | case2 k r x i g =>
    simp only [nodes_node, List.mem_cons, List.mem_append, not_or] at hy
    rw [kidsOf, if_neg (Ne.symm hy.1), kidsOf_insertTops_new hy.2.1, kidsOf_of_not_mem hy.2.2,
      append_nil]
  | case3 t k r x i g hne ihk ihr =>
    simp only [nodes_node, List.nodup_cons, List.nodup_append] at hf
    simp only [nodes_node, List.mem_cons, List.mem_append, not_or] at hy
    rw [kidsOf, if_neg (Ne.symm hy.1)]
    by_cases hk : x ∈ k.nodes
    · have hr : x ∉ r.nodes := fun hr => hf.2.2.2 x hk x hr rfl
      rw [insertAt_of_not_mem hr, kidsOf_of_not_mem hy.2.2, ihk hf.2.1 hk hy.2.1, append_nil]
    · rw [insertAt_of_not_mem hk, kidsOf_of_not_mem hy.2.1,
        ihr hf.2.2.1 (by grind [nodes_node]) hy.2.2, nil_append]

omit [DecidableEq ι] in
theorem without_append : (f.append g).without p = (f.without p).append (g.without p) := by
  induction f with
  | nil => rfl
  | node y k r _ ihr =>
    rw [node_append, without, without, ihr]
    split <;> simp

omit [DecidableEq ι] in
theorem without_of_tops (hg : ∀ x ∈ g.tops, p x = true) : g.without p = nil := by
  induction g with
  | nil => rfl
  | node y k r _ ihr =>
    rw [without, if_pos (hg y (by simp)), ihr fun x hx => hg x (by simp [hx])]

omit [DecidableEq ι] in
theorem without_insertTops (hg : ∀ x ∈ g.tops, p x = true) :
    (f.insertTops i g).without p = f.without p := by
  fun_induction insertTops f i g with
  | case1 f g => rw [without_append, without_of_tops hg, nil_append]
  | case2 i g => exact without_of_tops hg
  | case3 y k r i g ih => simp only [without, ih hg]

/-- What has been put in goes again: it goes itself, or it is below what goes. -/
theorem without_insertAt (hf : f.nodes.Nodup)
    (hg : (∀ y ∈ g.tops, p y = true) ∨ ∃ y, p y = true ∧ x ∈ f.under y) :
    (f.insertAt x i g).without p = f.without p := by
  fun_induction insertAt f x i g with
  | case1 => rfl
  | case2 k r x i g =>
    by_cases hpx : p x
    · simp [without, hpx]
    · have htops : ∀ y ∈ g.tops, p y = true := hg.resolve_right fun ⟨y, hy, hxy⟩ => by
        have hyx : x ≠ y := fun h => hpx (h ▸ hy)
        simp only [nodes_node, List.nodup_cons, List.mem_append, not_or] at hf
        rw [under, if_neg hyx, List.mem_append] at hxy
        exact hxy.elim (fun h => hf.1.1 (under_subset h)) fun h => hf.1.2 (under_subset h)
      simp [without, hpx, without_insertTops htops]
  | case3 t k r x i g hne ihk ihr =>
    simp only [nodes_node, List.nodup_cons, List.nodup_append] at hf
    have hk (hpt : ¬ p t) : (k.insertAt x i g).without p = k.without p := by
      by_cases hx : x ∈ k.nodes
      · refine ihk hf.2.1 (hg.imp_right fun ⟨y, hy, hxy⟩ => ⟨y, hy, ?_⟩)
        have hyt : t ≠ y := fun h => hpt (h ▸ hy)
        rw [under, if_neg hyt, List.mem_append] at hxy
        exact hxy.resolve_right fun h => hf.2.2.2 x hx x (under_subset h) rfl
      · rw [insertAt_of_not_mem hx]
    have hr : (r.insertAt x i g).without p = r.without p := by
      by_cases hx : x ∈ r.nodes
      · refine ihr hf.2.2.1 (hg.imp_right fun ⟨y, hy, hxy⟩ => ⟨y, hy, ?_⟩)
        have hnot : x ∉ k.nodes := fun hk => hf.2.2.2 x hk x hx rfl
        rw [under] at hxy
        split_ifs at hxy
        · simp [Ne.symm hne, hnot] at hxy
        · exact (List.mem_append.1 hxy).resolve_left fun h => hnot (under_subset h)
      · rw [insertAt_of_not_mem hx]
    by_cases hpt : p t
    · simp [without, hpt, hr]
    · simp [without, hpt, hk hpt, hr]

end LinkedForest.Forest
