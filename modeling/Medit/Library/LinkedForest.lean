import Mathlib.Logic.Function.Basic
import Mathlib.Data.List.Nodup

/-!
# Forests in memory

Ordered forests whose nodes are cells with a parent, a previous and a next sibling, a first
child and the number of children. `Forest` is the shape, `Linked` says that the cells
have it. A change in the middle of a forest is described where it happens (`Replaced`), and
carried up to the roots by two rules: one for the siblings before it, one for the node above.

## Main definitions

* `LinkedForest.Forest` — a list of siblings, each with the forest below it.
* `LinkedForest.Heap` — the cells, the first root and the number of roots.
* `LinkedForest.Linked` — the cells of a list of siblings are as its shape says.
* `LinkedForest.Replaced` — one memory has `f'` where the other had `f`.
* `LinkedForest.Walk` — following first children and next siblings visits a list of nodes.

## Main results

* `Replaced.rest`, `Replaced.kids` — a change further down is a change of the whole.
* `Placed.push`, `Placed.wrap`, `Placed.splice` — a new node, a node put above another one,
  and a node whose children take its place.
-/

namespace LinkedForest

variable {ι : Type*}

/-- A list of siblings: the first of them, what is below it, and the siblings after it. -/
inductive Forest (ι : Type*)
  | nil
  | node (x : ι) (kids rest : Forest ι)
deriving DecidableEq

namespace Forest

/-- The first of the siblings. -/
def head : Forest ι → Option ι
  | nil => none
  | node x _ _ => some x

/-- The siblings, without what is below them. -/
def tops : Forest ι → List ι
  | nil => []
  | node x _ r => x :: r.tops

/-- All nodes, a node before those below it. -/
def nodes : Forest ι → List ι
  | nil => []
  | node x k r => x :: (k.nodes ++ r.nodes)

/-- The last of the siblings, or what comes before all of them. -/
def lastOr (q : Option ι) : Forest ι → Option ι
  | nil => q
  | node x _ r => r.lastOr (some x)

/-- The siblings of one forest and then those of the other. -/
def append : Forest ι → Forest ι → Forest ι
  | nil, s => s
  | node x k r, s => node x k (r.append s)

variable {x y : ι} {f k r s : Forest ι} {q : Option ι}

@[simp] theorem head_nil : (nil : Forest ι).head = none := rfl
@[simp] theorem head_node : (node x k r).head = some x := rfl
@[simp] theorem tops_nil : (nil : Forest ι).tops = [] := rfl
@[simp] theorem tops_node : (node x k r).tops = x :: r.tops := rfl
@[simp] theorem nodes_nil : (nil : Forest ι).nodes = [] := rfl
@[simp] theorem nodes_node : (node x k r).nodes = x :: (k.nodes ++ r.nodes) := rfl
@[simp] theorem lastOr_nil : (nil : Forest ι).lastOr q = q := rfl
@[simp] theorem lastOr_node : (node x k r).lastOr q = r.lastOr (some x) := rfl
@[simp] theorem nil_append : (nil : Forest ι).append s = s := rfl
@[simp] theorem node_append : (node x k r).append s = node x k (r.append s) := rfl

theorem head_eq_none : f.head = none ↔ f = nil := by
  cases f <;> simp

theorem tops_subset : f.tops ⊆ f.nodes := by
  induction f with
  | nil => simp
  | node x k r _ ihr =>
    intro y hy
    rcases List.mem_cons.1 hy with rfl | hy
    · simp
    · simp [ihr hy]

theorem tops_length_le : f.tops.length ≤ f.nodes.length := by
  induction f with
  | nil => simp
  | node x k r _ ihr =>
    simp only [tops_node, nodes_node, List.length_cons, List.length_append]
    omega

theorem lastOr_eq : f.lastOr q = q ∨ ∃ x ∈ f.tops, f.lastOr q = some x := by
  induction f generalizing q with
  | nil => exact .inl rfl
  | node x k r _ ihr =>
    obtain h | ⟨y, hy, h⟩ := ihr (q := some x)
    · exact .inr ⟨x, by simp, h⟩
    · exact .inr ⟨y, by simp [hy], h⟩

theorem lastOr_mem (hf : f ≠ nil) : ∃ x ∈ f.tops, f.lastOr q = some x := by
  cases f with
  | nil => exact absurd rfl hf
  | node x k r =>
    obtain h | ⟨y, hy, h⟩ := r.lastOr_eq (q := some x)
    · exact ⟨x, by simp, h⟩
    · exact ⟨y, by simp [hy], h⟩

theorem head_mem_tops (h : f.head = some x) : x ∈ f.tops := by
  cases f with
  | nil => simp at h
  | node y k r =>
    obtain rfl : y = x := by simpa using h
    simp

theorem mem_nodes_of_head (h : f.head = some x) : x ∈ f.nodes := tops_subset (head_mem_tops h)

theorem lastOr_eq_or : f.lastOr q = (f.lastOr none).or q := by
  cases f with
  | nil => simp
  | node x k r =>
    obtain ⟨y, -, hy⟩ := lastOr_mem (q := none) (f := node x k r) (by simp)
    rw [hy]
    exact hy

theorem mem_tops_of_lastOr (h : f.lastOr none = some x) : x ∈ f.tops := by
  obtain h' | ⟨y, hy, h'⟩ := f.lastOr_eq (q := none)
  · simp [h'] at h
  · obtain rfl : y = x := by simpa [h'] using h
    exact hy

@[simp] theorem nodes_append : (f.append s).nodes = f.nodes ++ s.nodes := by
  induction f with
  | nil => rfl
  | node x k r _ ihr => simp [ihr]

@[simp] theorem tops_append : (f.append s).tops = f.tops ++ s.tops := by
  induction f with
  | nil => rfl
  | node x k r _ ihr => simp [ihr]

theorem head_append : (f.append s).head = f.head.or s.head := by
  cases f <;> simp

end Forest

open Forest

/-- A node in memory. -/
structure Cell (ι : Type*) where
  parent : Option ι
  prev : Option ι
  next : Option ι
  children : Option ι
  count : ℕ

/-- The memory of a forest. -/
structure Heap (ι : Type*) where
  cell : ι → Cell ι
  first : Option ι
  count : ℕ

/-- The cells of the siblings `f`, which are below `p` and come after `q`, are linked. -/
def Linked (h : Heap ι) (p q : Option ι) : Forest ι → Prop
  | nil => True
  | node x k r => h.cell x = ⟨p, q, r.head, k.head, k.tops.length⟩ ∧
      Linked h (some x) none k ∧ Linked h p (some x) r

variable {h u : Heap ι} {p q : Option ι} {f g k r s : Forest ι} {x y z : ι} {new : List ι}
  {c : ℕ}

@[simp] theorem linked_nil : Linked h p q nil := trivial

/-- Only the cells of the nodes matter. -/
theorem Linked.congr (hl : Linked h p q f) (heq : ∀ y ∈ f.nodes, u.cell y = h.cell y) :
    Linked u p q f := by
  induction f generalizing p q with
  | nil => trivial
  | node x k r ihk ihr =>
    obtain ⟨hx, hk, hr⟩ := hl
    exact ⟨(heq x (by simp)).trans hx, ihk hk fun y hy => heq y (by simp [hy]),
      ihr hr fun y hy => heq y (by simp [hy])⟩

theorem Linked.prev_of_head (hl : Linked h p q f) (hx : f.head = some x) :
    (h.cell x).prev = q := by
  cases f with
  | nil => simp at hx
  | node y k r =>
    obtain rfl : y = x := by simpa using hx
    simp [hl.1]

/-- The siblings come after another node than before. -/
theorem Linked.set_prev [DecidableEq ι] (hl : Linked h p q f) (hnd : f.nodes.Nodup)
    {q' : Option ι} (heq : ∀ y ∈ f.nodes,
      u.cell y = if f.head = some y then { h.cell y with prev := q' } else h.cell y) :
    Linked u p q' f := by
  cases f with
  | nil => trivial
  | node x k r =>
    obtain ⟨hx, hk, hr⟩ := hl
    have hrest : ∀ y ∈ k.nodes ++ r.nodes, u.cell y = h.cell y := fun y hy => by
      have hne : x ≠ y := fun he => (List.nodup_cons.1 hnd).1 (he ▸ hy)
      simpa [hne] using heq y (List.mem_cons_of_mem _ hy)
    refine ⟨by simpa [hx] using heq x (by simp), hk.congr fun y hy => ?_, hr.congr fun y hy => ?_⟩
    · exact hrest y (List.mem_append_left _ hy)
    · exact hrest y (List.mem_append_right _ hy)

/-! ## Changes inside a forest -/

/-- The pointer to the siblings below `p` that come after `q`. -/
def Heap.slot (h : Heap ι) (p q : Option ι) : Option ι :=
  match q, p with
  | some y, _ => (h.cell y).next
  | none, some z => (h.cell z).children
  | none, none => h.first

/-- The number of children of `p`. -/
def Heap.countOf (h : Heap ι) : Option ι → ℕ
  | some z => (h.cell z).count
  | none => h.count

/-- The place in memory of the siblings `f`: below `p`, after `q`, and reached from there. The
nodes `new` are not in use. -/
structure Placed (h : Heap ι) (p q : Option ι) (f : Forest ι) (new : List ι) : Prop where
  linked : Linked h p q f
  slot : h.slot p q = f.head
  nodup : (new ++ f.nodes).Nodup
  parent_notMem : ∀ y ∈ new ++ f.nodes, p ≠ some y
  prev_notMem : ∀ y ∈ new ++ f.nodes, q ≠ some y
  count_le : f.tops.length ≤ h.countOf p
  first_some : q ≠ none → ∃ z, h.slot p none = some z ∧ (h.cell z).prev = none

namespace Placed

theorem rest (hp : Placed h p q (node x k r) new) : Placed h p (some x) r new := by
  obtain ⟨⟨hx, hk, hr⟩, hslot, hnd, hpar, hprev, hle, hsome⟩ := hp
  have hsub : (new ++ r.nodes).Sublist (new ++ (node x k r).nodes) :=
    List.sublist_append_right ([x] ++ k.nodes) _ |>.append_left new |>.trans (by simp)
  refine ⟨hr, by simp [Heap.slot, hx], hnd.sublist hsub, fun y hy => hpar y (hsub.subset hy),
    fun y hy hxy => ?_, Nat.le_trans (Nat.le_succ _) hle, fun _ => ?_⟩
  · obtain rfl : x = y := by simpa using hxy
    rw [nodes_node, List.nodup_middle, List.nodup_cons] at hnd
    refine hnd.1 ?_
    rcases List.mem_append.1 hy with hy | hy
    · exact List.mem_append_left _ hy
    · exact List.mem_append_right _ (List.mem_append_right _ hy)
  · cases q with
    | none => exact ⟨x, hslot, by rw [hx]⟩
    | some w => exact hsome nofun

theorem kids (hp : Placed h p q (node x k r) new) : Placed h (some x) none k new := by
  obtain ⟨⟨hx, hk, hr⟩, hslot, hnd, hpar, hprev, hle, hsome⟩ := hp
  have hsub : (new ++ k.nodes).Sublist (new ++ (node x k r).nodes) := by
    refine List.Sublist.append_left ?_ new
    exact (List.sublist_append_left k.nodes r.nodes).trans (List.sublist_cons_self _ _)
  refine ⟨hk, by simp [Heap.slot, hx], hnd.sublist hsub, fun y hy hxy => ?_, fun y hy => nofun,
    by simp [Heap.countOf, hx], fun h => absurd rfl h⟩
  obtain rfl : x = y := by simpa using hxy
  rw [nodes_node, List.nodup_middle, List.nodup_cons] at hnd
  refine hnd.1 ?_
  rcases List.mem_append.1 hy with hy | hy
  · exact List.mem_append_left _ hy
  · exact List.mem_append_right _ (List.mem_append_left _ hy)

theorem notMem_kids (hp : Placed h p q (node x k r) new) : x ∉ new ++ k.nodes := fun hmem =>
  hp.kids.parent_notMem x hmem rfl

/-- The nodes of a placed forest are apart. -/
theorem notMem (hp : Placed h p q (node x k r) new) : x ∉ new ++ r.nodes ∧
    (∀ y ∈ k.nodes, x ≠ y ∧ y ∉ new ++ r.nodes) ∧ ∀ y ∈ r.nodes, x ≠ y ∧ y ∉ new ++ k.nodes := by
  have hx : x ∉ new ++ r.nodes := fun hmem => hp.rest.prev_notMem x hmem rfl
  have hnd := hp.nodup
  rw [nodes_node, List.nodup_middle, List.nodup_cons, List.nodup_append] at hnd
  obtain ⟨-, -, hkr, hnew⟩ := hnd
  rw [List.nodup_append] at hkr
  refine ⟨hx, fun y hy => ⟨?_, fun hmem => ?_⟩, fun y hy => ⟨?_, fun hmem => ?_⟩⟩
  · rintro rfl
    exact hp.notMem_kids (List.mem_append_right _ hy)
  · rcases List.mem_append.1 hmem with hmem | hmem
    · exact hnew y hmem y (List.mem_append_left _ hy) rfl
    · exact hkr.2.2 y hy y hmem rfl
  · rintro rfl
    exact hx (List.mem_append_right _ hy)
  · rcases List.mem_append.1 hmem with hmem | hmem
    · exact hnew y hmem y (List.mem_append_right _ hy) rfl
    · exact hkr.2.2 y hmem y hy rfl

/-- A node is the first of its list when nothing comes before it. -/
theorem first_iff (hp : Placed h p q (node x k r) new) : h.slot p none = some x ↔ q = none := by
  constructor
  · intro hx
    by_contra hq
    obtain ⟨z, hz, hprev⟩ := hp.first_some hq
    obtain rfl : x = z := by simpa [hx] using hz
    rw [hp.linked.1] at hprev
    exact hq hprev
  · rintro rfl
    exact hp.slot

theorem slot_node (hp : Placed h p q (node x k r) new) : h.slot p q = some x := hp.slot

theorem cell_head (hp : Placed h p q (node x k r) new) :
    h.cell x = ⟨p, q, r.head, k.head, k.tops.length⟩ := hp.linked.1

theorem nodes_nodup (hp : Placed h p q f new) : f.nodes.Nodup :=
  hp.nodup.sublist (List.sublist_append_right _ _)

end Placed

section Put
variable [DecidableEq ι]

/-- The memory with another pointer to the siblings below `p` after `q`, and another number of
children of `p`. -/
def Heap.put (h : Heap ι) (p q v : Option ι) (c : ℕ) : Heap ι where
  cell y := { h.cell y with
    next := if q = some y then v else (h.cell y).next
    children := if p = some y ∧ q = none then v else (h.cell y).children
    count := if p = some y then c else (h.cell y).count }
  first := if p = none ∧ q = none then v else h.first
  count := if p = none then c else h.count

variable {v : Option ι}

theorem Heap.put_cell (hslot : h.slot p q = v) :
    (h.put p q v c).cell y =
      { h.cell y with count := if p = some y then c else (h.cell y).count } := by
  subst hslot
  cases q with
  | some w =>
    by_cases hwy : w = y
    · subst hwy
      simp [Heap.put, Heap.slot]
    · simp [Heap.put, hwy]
  | none =>
    by_cases hpy : p = some y
    · subst hpy
      simp [Heap.put, Heap.slot]
    · simp [Heap.put, hpy]

theorem Heap.put_first (hslot : h.slot p q = v) : (h.put p q v c).first = h.first := by
  subst hslot
  cases q <;> cases p <;> simp [Heap.put, Heap.slot]

theorem Heap.put_countOf_cell (hslot : h.slot p q = v) :
    (h.put p q v (h.countOf p)).cell y = h.cell y := by
  rw [Heap.put_cell hslot]
  split
  · next hp => simp [hp, Heap.countOf]
  · rfl

theorem Heap.put_countOf_count : (h.put p q v (h.countOf p)).count = h.count := by
  cases p <;> simp [Heap.put, Heap.countOf]

/-- The slot after a node is in that node. -/
theorem Heap.put_some_cell (hxy : x ≠ y) : (h.put p (some x) v c).cell y =
    { h.cell y with count := if p = some y then c else (h.cell y).count } := by
  simp [Heap.put, hxy]

/-- The memory `u` is `h` with `g` in place of the siblings `f`. Besides the nodes of `f` and the
nodes `new`, what changes is the pointer to the siblings and the number of children above. -/
structure Replaced (h u : Heap ι) (p q : Option ι) (f g : Forest ι) (c : ℕ) (new : List ι) :
    Prop where
  linked : Linked u p q g
  cell : ∀ y ∉ new ++ f.nodes, u.cell y = (h.put p q g.head c).cell y
  first : u.first = (h.put p q g.head c).first
  count : u.count = (h.put p q g.head c).count
  balance : c + f.tops.length = h.countOf p + g.tops.length

namespace Replaced

/-- A change among the siblings after `x`. -/
theorem rest (hr : Replaced h u p (some x) r s c new) (hp : Placed h p q (node x k r) new) :
    Replaced h u p q (node x k r) (node x k s) c new := by
  obtain ⟨hlinked, hcell, hfirst, hcount, hbal⟩ := hr
  obtain ⟨hx, hk, hr⟩ := hp.notMem
  have hpx : p ≠ some x := hp.parent_notMem x (by simp)
  refine ⟨⟨?_, hp.linked.2.1.congr fun y hy => ?_, hlinked⟩, fun y hy => ?_, ?_, hcount, ?_⟩
  · simp [hcell x hx, Heap.put, hpx, hp.cell_head]
  · have hpy : p ≠ some y := hp.parent_notMem y (by simp [hy])
    obtain ⟨hxy, hy⟩ := hk y hy
    simp [hcell y hy, Heap.put, hxy, hpy]
  · have hxy : x ≠ y := fun he => hy (by simp [he])
    have hyr : y ∉ new ++ r.nodes := fun hmem => hy (by
      rcases List.mem_append.1 hmem with hmem | hmem <;> simp [hmem])
    rw [hcell y hyr, Heap.put_some_cell hxy, head_node, Heap.put_cell hp.slot_node]
  · rw [hfirst, head_node, Heap.put_first hp.slot_node]
    simp [Heap.put]
  · simp only [tops_node, List.length_cons]
    omega

/-- A change below `x`. -/
theorem kids (hr : Replaced h u (some x) none k s c new) (hp : Placed h p q (node x k r) new) :
    Replaced h u p q (node x k r) (node x s r) (h.countOf p) new := by
  obtain ⟨hlinked, hcell, hfirst, hcount, hbal⟩ := hr
  obtain ⟨hx, hk, hr⟩ := hp.notMem
  have hx : x ∉ new ++ k.nodes := hp.notMem_kids
  have hcx : h.countOf (some x) = k.tops.length := by simp [Heap.countOf, hp.cell_head]
  refine ⟨⟨?_, hlinked, hp.linked.2.2.congr fun y hy => ?_⟩, fun y hy => ?_, ?_, ?_, ?_⟩
  · have hc : c = s.tops.length := by omega
    simp [hcell x hx, Heap.put, hp.cell_head, hc]
  · obtain ⟨hxy, hy⟩ := hr y hy
    simp [hcell y hy, Heap.put, hxy]
  · have hxy : x ≠ y := fun he => hy (by simp [he])
    have hyk : y ∉ new ++ k.nodes := fun hmem => hy (by
      rcases List.mem_append.1 hmem with hmem | hmem <;> simp [hmem])
    rw [hcell y hyk, head_node, Heap.put_countOf_cell hp.slot_node]
    simp [Heap.put, hxy]
  · rw [hfirst, head_node, Heap.put_first hp.slot_node]
    simp [Heap.put]
  · rw [hcount, Heap.put_countOf_count]
    simp [Heap.put]
  · simp

end Replaced

namespace Placed

/-- A new node before the siblings. -/
theorem push (hp : Placed h p q f [x]) (hx : u.cell x = ⟨p, q, f.head, none, 0⟩)
    (hf : ∀ y ∈ f.nodes,
      u.cell y = if f.head = some y then { h.cell y with prev := some x } else h.cell y)
    (hout : ∀ y ∉ x :: f.nodes, u.cell y = (h.put p q (some x) (h.countOf p + 1)).cell y)
    (hfirst : u.first = (h.put p q (some x) (h.countOf p + 1)).first)
    (hcount : u.count = (h.put p q (some x) (h.countOf p + 1)).count) :
    Replaced h u p q f (node x nil f) (h.countOf p + 1) [x] where
  linked := ⟨by simp [hx], trivial, hp.linked.set_prev hp.nodes_nodup hf⟩
  cell := hout
  first := hfirst
  count := hcount
  balance := by
    simp only [tops_node, List.length_cons]
    omega

/-- A new node in the place of the first of the siblings, with that one below it. -/
theorem wrap (hp : Placed h p q (node x k r) [z]) (hz : u.cell z = ⟨p, q, r.head, some x, 1⟩)
    (hx : u.cell x = { h.cell x with parent := some z, prev := none, next := none })
    (hk : ∀ y ∈ k.nodes, u.cell y = h.cell y)
    (hr : ∀ y ∈ r.nodes,
      u.cell y = if r.head = some y then { h.cell y with prev := some z } else h.cell y)
    (hout : ∀ y ∉ z :: (node x k r).nodes, u.cell y = (h.put p q (some z) (h.countOf p)).cell y)
    (hfirst : u.first = (h.put p q (some z) (h.countOf p)).first)
    (hcount : u.count = (h.put p q (some z) (h.countOf p)).count) :
    Replaced h u p q (node x k r) (node z (node x k nil) r) (h.countOf p) [z] where
  linked := by
    refine ⟨by simp [hz], ⟨by simp [hx, hp.cell_head], hp.linked.2.1.congr hk, trivial⟩, ?_⟩
    exact hp.linked.2.2.set_prev hp.rest.nodes_nodup hr
  cell := hout
  first := hfirst
  count := hcount
  balance := by simp

end Placed

/-- The siblings `k` before the siblings `s`. -/
theorem Linked.append {p₀ q₀ : Option ι} (hk : Linked h p₀ q₀ k) (hs : Linked u p (k.lastOr q) s)
    (hnd : k.nodes.Nodup) (hcell : ∀ y ∈ k.nodes, u.cell y =
      if y ∈ k.tops then { h.cell y with
        parent := p
        prev := if k.head = some y then q else (h.cell y).prev
        next := if k.lastOr none = some y then s.head else (h.cell y).next }
      else h.cell y) :
    Linked u p q (k.append s) := by
  induction k generalizing p₀ q₀ q with
  | nil => exact hs
  | node x k r _ ihr =>
    obtain ⟨hx, hkids, hrest⟩ := hk
    simp only [nodes_node, List.nodup_cons, List.mem_append, not_or] at hnd
    obtain ⟨⟨hxk, hxr⟩, hnd⟩ := hnd
    rw [List.nodup_append] at hnd
    obtain ⟨-, hndr, hkr⟩ := hnd
    refine ⟨?_, hkids.congr fun y hy => ?_, ihr hrest hs hndr fun y hy => ?_⟩
    · rw [hcell x (by simp), if_pos (by simp)]
      cases r with
      | nil => simp [hx]
      | node y k' r' =>
        have hlast : r'.lastOr (some y) ≠ some x := fun he => by
          obtain ⟨z, hz, heq⟩ := lastOr_mem (q := some x) (f := node y k' r') (by simp)
          obtain rfl : z = x := by simpa [he] using heq.symm
          exact hxr (tops_subset hz)
        simp [hx, hlast]
    · rw [hcell y (by simp [hy]), if_neg]
      intro htop
      rcases List.mem_cons.1 htop with rfl | htop
      · exact hxk hy
      · exact hkr y hy y (tops_subset htop) rfl
    · have hne : y ≠ x := fun he => hxr (he ▸ hy)
      have hprev : (if r.head = some y then some x else (h.cell y).prev) = (h.cell y).prev := by
        split
        · next hhead => exact (hrest.prev_of_head hhead).symm
        · rfl
      rw [hcell y (by simp [hy]), hprev]
      have hlast : r.lastOr (some x) = some y ↔ r.lastOr none = some y := by
        cases r with
        | nil => simp [hne.symm]
        | node => simp
      simp [hne, hne.symm, hlast]

namespace Placed

/-- The node `x` gives its place to its children. -/
theorem splice (hp : Placed h p q (node x k r) [])
    (hk : ∀ y ∈ k.nodes, u.cell y =
      if y ∈ k.tops then { h.cell y with
        parent := p
        prev := if k.head = some y then q else (h.cell y).prev
        next := if k.lastOr none = some y then r.head else (h.cell y).next }
      else h.cell y)
    (hr : ∀ y ∈ r.nodes,
      u.cell y = if r.head = some y then { h.cell y with prev := k.lastOr q } else h.cell y)
    (hout : ∀ y ∉ (node x k r).nodes, u.cell y =
      (h.put p q (k.append r).head (h.countOf p + k.tops.length - 1)).cell y)
    (hfirst : u.first = (h.put p q (k.append r).head (h.countOf p + k.tops.length - 1)).first)
    (hcount : u.count = (h.put p q (k.append r).head (h.countOf p + k.tops.length - 1)).count) :
    Replaced h u p q (node x k r) (k.append r) (h.countOf p + k.tops.length - 1) [] where
  linked := by
    have hr' := hp.linked.2.2.set_prev hp.rest.nodes_nodup hr
    exact hp.linked.2.1.append hr' hp.kids.nodes_nodup hk
  cell := hout
  first := hfirst
  count := hcount
  balance := by
    have := hp.count_le
    simp only [tops_node, tops_append, List.length_cons, List.length_append] at this ⊢
    omega

end Placed

end Put

/-! ## The whole forest -/

/-- The memory holds the forest `f`. -/
structure Rooted (h : Heap ι) (f : Forest ι) : Prop where
  linked : Linked h none none f
  first : h.first = f.head
  count : h.count = f.tops.length
  nodup : f.nodes.Nodup

theorem Rooted.slot_none (hr : Rooted h f) : h.slot none none = f.head := hr.first

/-- The roots are a list of siblings in their place. -/
theorem Rooted.placed (hr : Rooted h f) (hnew : (new ++ f.nodes).Nodup) :
    Placed h none none f new :=
  ⟨hr.linked, hr.first, hnew, fun _ _ => nofun, fun _ _ => nofun, Nat.le_of_eq hr.count.symm,
    fun h => absurd rfl h⟩

theorem Replaced.rooted [DecidableEq ι] (hu : Replaced h u none none f g c new) (hr : Rooted h f)
    (hnd : g.nodes.Nodup) : Rooted u g := by
  obtain ⟨hlinked, -, hfirst, hcount, hbal⟩ := hu
  refine ⟨hlinked, by simpa [Heap.put] using hfirst, ?_, hnd⟩
  have hc : h.countOf none = f.tops.length := hr.count
  have hu : u.count = c := by simpa [Heap.put] using hcount
  omega

/-! ## Walking the memory -/

/-- Following next siblings from `o` meets the nodes `xs`. -/
def Chain (h : Heap ι) : Option ι → List ι → Prop
  | o, [] => o = none
  | o, x :: xs => o = some x ∧ Chain h (h.cell x).next xs

/-- Following first children and next siblings from `o` visits the nodes `xs`. -/
inductive Walk (h : Heap ι) : Option ι → List ι → Prop
  | done : Walk h none []
  | visit {x xs ys} : Walk h (h.cell x).children xs → Walk h (h.cell x).next ys →
      Walk h (some x) (x :: (xs ++ ys))

/-- The pointers of the live nodes agree with each other. -/
structure WellLinked (h : Heap ι) (live : ι → Prop) : Prop where
  /-- Each live node is reached exactly once, and nothing else is. -/
  walk : ∃ xs, Walk h h.first xs ∧ xs.Nodup ∧ ∀ x, x ∈ xs ↔ live x
  next_prev : ∀ {x y}, live x → (h.cell x).next = some y → (h.cell y).prev = some x
  prev_next : ∀ {x y}, live x → (h.cell x).prev = some y → (h.cell y).next = some x
  /-- A live node is in the list of its parent. -/
  parent_mem : ∀ {x}, live x → ∃ xs, Chain h (h.slot (h.cell x).parent none) xs ∧ x ∈ xs
  /-- The list of a node, or of the roots, ends; those in it have the node for parent, and are as
  many as the node says. -/
  children : ∀ {p}, (∀ x, p = some x → live x) → ∃ xs, Chain h (h.slot p none) xs ∧
    xs.length = h.countOf p ∧ ∀ x ∈ xs, live x ∧ (h.cell x).parent = p

namespace Linked

theorem chain (hl : Linked h p q f) : Chain h f.head f.tops := by
  induction f generalizing p q with
  | nil => rfl
  | node x k r _ ihr =>
    refine ⟨rfl, ?_⟩
    rw [hl.1]
    exact ihr hl.2.2

theorem walk (hl : Linked h p q f) : Walk h f.head f.nodes := by
  induction f generalizing p q with
  | nil => exact .done
  | node x k r ihk ihr =>
    refine .visit ?_ ?_
    · rw [hl.1]
      exact ihk hl.2.1
    · rw [hl.1]
      exact ihr hl.2.2

theorem parent_of_mem_tops (hl : Linked h p q f) (hx : x ∈ f.tops) : (h.cell x).parent = p := by
  induction f generalizing p q with
  | nil => simp at hx
  | node y k r _ ihr =>
    rcases List.mem_cons.1 hx with rfl | hx
    · rw [hl.1]
    · exact ihr hl.2.2 hx

theorem next_prev (hl : Linked h p q f) (hx : x ∈ f.nodes) (hy : (h.cell x).next = some y) :
    (h.cell y).prev = some x := by
  induction f generalizing p q with
  | nil => simp at hx
  | node z k r ihk ihr =>
    simp only [nodes_node, List.mem_cons, List.mem_append] at hx
    rcases hx with rfl | hx | hx
    · exact hl.2.2.prev_of_head (by rw [hl.1] at hy; exact hy)
    · exact ihk hl.2.1 hx
    · exact ihr hl.2.2 hx

theorem prev_next (hl : Linked h p q f) (hx : x ∈ f.nodes) (hy : (h.cell x).prev = some y) :
    q = some y ∧ f.head = some x ∨ (h.cell y).next = some x := by
  induction f generalizing p q with
  | nil => simp at hx
  | node z k r ihk ihr =>
    simp only [nodes_node, List.mem_cons, List.mem_append] at hx
    rcases hx with rfl | hx | hx
    · rw [hl.1] at hy
      exact .inl ⟨hy, rfl⟩
    · refine (ihk hl.2.1 hx).imp (fun hq => ?_) id
      simp at hq
    · refine .inr ((ihr hl.2.2 hx).elim (fun hq => ?_) id)
      obtain rfl : z = y := by simpa using hq.1
      rw [hl.1]
      exact hq.2

/-- The forest below a node. -/
theorem kids_of_mem (hl : Linked h p q f) (hx : x ∈ f.nodes) : ∃ k, Linked h (some x) none k ∧
    (h.cell x).children = k.head ∧ (h.cell x).count = k.tops.length ∧ k.nodes ⊆ f.nodes := by
  induction f generalizing p q with
  | nil => simp at hx
  | node z k r ihk ihr =>
    simp only [nodes_node, List.mem_cons, List.mem_append] at hx
    rcases hx with rfl | hx | hx
    · refine ⟨k, hl.2.1, by rw [hl.1], by rw [hl.1], fun y hy => ?_⟩
      simp [hy]
    · obtain ⟨k', hk', hhead, hcount, hsub⟩ := ihk hl.2.1 hx
      refine ⟨k', hk', hhead, hcount, fun y hy => ?_⟩
      simp [hsub hy]
    · obtain ⟨k', hk', hhead, hcount, hsub⟩ := ihr hl.2.2 hx
      refine ⟨k', hk', hhead, hcount, fun y hy => ?_⟩
      simp [hsub hy]

/-- The list of siblings a node is in. -/
theorem siblings_of_mem (hl : Linked h p q f) (hx : x ∈ f.nodes) : x ∈ f.tops ∨
    ∃ z ∈ f.nodes, ∃ k, Linked h (some z) none k ∧ (h.cell z).children = k.head ∧ x ∈ k.tops := by
  induction f generalizing p q with
  | nil => simp at hx
  | node z k r ihk ihr =>
    simp only [nodes_node, List.mem_cons, List.mem_append] at hx
    rcases hx with rfl | hx | hx
    · exact .inl (by simp)
    · rcases ihk hl.2.1 hx with htop | ⟨w, hw, hrest⟩
      · exact .inr ⟨z, by simp, k, hl.2.1, by rw [hl.1], htop⟩
      · exact .inr ⟨w, by simp [hw], hrest⟩
    · rcases ihr hl.2.2 hx with htop | ⟨w, hw, hrest⟩
      · exact .inl (by simp [htop])
      · exact .inr ⟨w, by simp [hw], hrest⟩

end Linked

/-- Following next siblings gives one list only. -/
theorem Chain.unique {o : Option ι} {xs ys : List ι} (hx : Chain h o xs) (hy : Chain h o ys) :
    xs = ys := by
  induction xs generalizing o ys with
  | nil =>
    subst hx
    cases ys with
    | nil => rfl
    | cons y ys => exact nomatch hy.1
  | cons x xs ih =>
    obtain ⟨rfl, hx⟩ := hx
    cases ys with
    | nil => exact nomatch hy
    | cons y ys =>
      obtain ⟨heq, hy⟩ := hy
      obtain rfl := Option.some.inj heq
      rw [ih hx hy]

/-- A memory that holds a forest is well linked. -/
theorem Rooted.wellLinked (hr : Rooted h f) : WellLinked h (· ∈ f.nodes) where
  walk := ⟨f.nodes, hr.first ▸ hr.linked.walk, hr.nodup, fun _ => Iff.rfl⟩
  next_prev hx hy := hr.linked.next_prev hx hy
  prev_next hx hy := (hr.linked.prev_next hx hy).elim (fun hq => nomatch hq.1) id
  parent_mem {x} hx := by
    rcases hr.linked.siblings_of_mem hx with htop | ⟨z, -, k, hk, hhead, htop⟩
    · refine ⟨f.tops, ?_, htop⟩
      rw [hr.linked.parent_of_mem_tops htop, hr.slot_none]
      exact hr.linked.chain
    · refine ⟨k.tops, ?_, htop⟩
      rw [hk.parent_of_mem_tops htop]
      exact (show h.slot (some z) none = k.head from hhead) ▸ hk.chain
  children {p} hp := by
    cases p with
    | none =>
      refine ⟨f.tops, hr.slot_none ▸ hr.linked.chain, hr.count.symm, fun x hx => ?_⟩
      exact ⟨tops_subset hx, hr.linked.parent_of_mem_tops hx⟩
    | some z =>
      obtain ⟨k, hk, hhead, hcount, hsub⟩ := hr.linked.kids_of_mem (hp z rfl)
      refine ⟨k.tops, (show h.slot (some z) none = k.head from hhead) ▸ hk.chain, hcount.symm,
        fun x hx => ⟨hsub (tops_subset hx), hk.parent_of_mem_tops hx⟩⟩

end LinkedForest
