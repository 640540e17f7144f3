import Medit.Library.ForestEdit

/-!
# Places in forests

Nodes are found by paths of positions, and forests are put at a position below a node or on top.

## Main definitions

* `Forest.nodeAt`, `Forest.parentOf`, `Forest.siblings` — the node at a path, the node above a node,
  and the children of a node or the nodes on top.
* `Forest.place` — a forest with another one at a place.

## Main results

* `Forest.parentOf_eq_none`, `Forest.parentOf_eq_some` — what is above a node.
* `Forest.perm_place` — what is there.
* `Forest.tops_without` — what is left on top.
-/

namespace LinkedForest.Forest

variable {ι : Type*}

/-- The node at a path of positions. -/
def nodeAt : Forest ι → List ℕ → Option ι
  | nil, _ => none
  | node _ _ _, [] => none
  | node x _ _, [0] => some x
  | node _ k _, 0 :: i :: path => k.nodeAt (i :: path)
  | node _ _ r, (i + 1) :: path => r.nodeAt (i :: path)

/-- The node that a node is a child of. -/
def parentOf [DecidableEq ι] (x : ι) : Forest ι → Option ι
  | nil => none
  | node y k r => if x ∈ k.tops then some y else (k.parentOf x).or (r.parentOf x)

/-- The siblings below a node, or those on top. -/
def siblings [DecidableEq ι] (f : Forest ι) : Option ι → List ι
  | none => f.tops
  | some p => (f.kidsOf p).tops

/-- Another forest is put among the siblings. -/
def place [DecidableEq ι] (f : Forest ι) : Option ι → ℕ → Forest ι → Forest ι
  | none, i, g => f.insertTops i g
  | some p, i, g => f.insertAt p i g

variable {x y z : ι} {f g k r : Forest ι} {p : ι → Bool} {i : ℕ}

/-! ## Paths -/

theorem nodeAt_mem {path : List ℕ} (h : f.nodeAt path = some x) : x ∈ f.nodes := by
  fun_induction nodeAt f path <;> grind [nodes_node]

/-! ## Nodes on top -/

theorem tops_sublist : f.tops.Sublist f.nodes := by
  induction f with
  | nil => simp
  | node x k r _ ihr => exact (ihr.trans (List.sublist_append_right _ _)).cons_cons _

theorem tops_without : (f.without p).tops = f.tops.filter fun x => !p x := by
  fun_induction without p f <;> simp_all

theorem nodes_map {κ : Type*} (σ : ι → κ) : (f.map σ).nodes = f.nodes.map σ := by
  induction f with
  | nil => rfl
  | node x k r ihk ihr => simp [map, ihk, ihr]

variable [DecidableEq ι]

/-! ## Parents -/

theorem parentOf_of_not_mem (hx : x ∉ f.nodes) : f.parentOf x = none := by
  have htops := @tops_subset ι
  fun_induction parentOf x f <;> grind [nodes_node]

/-- A node without a parent is on top. -/
theorem parentOf_eq_none (hf : f.nodes.Nodup) (hx : x ∈ f.nodes) :
    f.parentOf x = none ↔ x ∈ f.tops := by
  have htops := @tops_subset ι
  have hout := @parentOf_of_not_mem ι
  fun_induction parentOf x f <;>
    grind [nodes_node, nodes_nil, tops_node, List.nodup_cons, List.nodup_append, Option.or_eq_none_iff]

theorem parentOf_eq_some (hf : f.nodes.Nodup) (h : f.parentOf x = some y) :
    y ∈ f.nodes ∧ x ∈ f.under y ∧ x ≠ y := by
  have htops := @tops_subset ι
  fun_induction parentOf x f <;>
    grind [nodes_node, under, List.nodup_cons, List.nodup_append, Option.or_eq_some_iff,
      under_of_not_mem]

/-- What is below a node is not on top. -/
theorem not_mem_tops_of_under (hf : f.nodes.Nodup) (hy : y ∈ f.under x) (hne : y ≠ x) :
    y ∉ f.tops := by
  have hsub := @under_subset ι
  have htops := @tops_subset ι
  fun_induction under x f <;> grind [nodes_node, tops_node, List.nodup_cons, List.nodup_append]

/-- What is below a node is not above it. -/
theorem not_mem_under_of_under (hf : f.nodes.Nodup) (hx : x ∈ f.nodes) (hy : y ∈ f.under x)
    (hne : y ≠ x) : x ∉ f.under y := by
  rw [under_eq hf hx, List.mem_cons] at hy
  exact not_mem_under_of_kidsOf hf (hy.resolve_left hne)

/-! ## Placing -/

variable {parent : Option ι}

theorem perm_place (hf : f.nodes.Nodup) (hparent : ∀ q ∈ parent, q ∈ f.nodes) :
    (f.place parent i g).nodes.Perm (g.nodes ++ f.nodes) := by
  cases parent with
  | none => exact perm_insertTops
  | some q => exact perm_insertAt hf (hparent q rfl)

theorem mem_place (hf : f.nodes.Nodup) (hparent : ∀ q ∈ parent, q ∈ f.nodes) :
    z ∈ (f.place parent i g).nodes ↔ z ∈ g.nodes ∨ z ∈ f.nodes := by
  rw [(perm_place hf hparent).mem_iff, List.mem_append]

/-! ## Taking out -/

theorem mem_without_self (hf : f.nodes.Nodup) :
    z ∈ (f.without (· = x)).nodes ↔ z ∈ f.nodes ∧ z ∉ f.under x := by
  simp [mem_without hf]

end LinkedForest.Forest
