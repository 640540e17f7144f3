import Medit.Library.ForestEdit

/-!
# Linked siblings

Nodes with a parent, a previous and a next sibling, and a first and a last child. A node is put
behind the children of another one, and a node is taken out from between its siblings.

## Main definitions

* `Siblings.Links` — the pointers of a node.
* `Siblings.pushLast`, `Siblings.unlink` — the pointers, after the one and the other.
* `Siblings.Linked` — the pointers are those of a forest.

## Main results

* `Linked.pushLast`, `Linked.unlink` — the pointers are those of the changed forest.
* `Linked.wellLinked` — what the pointers of a forest are like.
-/

namespace LinkedForest.Forest

variable {ι : Type*} [DecidableEq ι]

/-- The forest with siblings `g` behind the children of `x`. -/
def addLast : Forest ι → ι → Forest ι → Forest ι
  | nil, _, _ => nil
  | node y k r, x, g =>
    if y = x then node y (k.append g) r else node y (k.addLast x g) (r.addLast x g)

variable {f g h : Forest ι} {x y : ι}

attribute [elab_as_elim] addLast.induct_unfolding

theorem addLast_of_not_mem (hx : x ∉ f.nodes) : f.addLast x g = f := by
  fun_induction addLast f x g <;> grind [nodes_node]

@[simp] theorem addLast_nil : f.addLast x nil = f := by
  induction f <;> simp_all [addLast]

theorem tops_addLast : (f.addLast x g).tops = f.tops := by
  fun_induction addLast f x g <;> simp_all

theorem perm_addLast (hf : f.nodes.Nodup) (hx : x ∈ f.nodes) :
    (f.addLast x g).nodes.Perm (g.nodes ++ f.nodes) := by
  fun_induction addLast f x g with
  | case1 => simp at hx
  | case2 k r x g =>
    simp only [nodes_node, nodes_append]
    refine List.Perm.trans (.cons x ?_) List.perm_middle.symm
    rw [List.append_assoc]
    exact List.perm_append_comm_assoc ..
  | case3 y k r x g hne ihk ihr =>
    simp only [nodes_node, List.nodup_cons, List.nodup_append] at hf
    have hr : ((k.addLast x g).nodes ++ (r.addLast x g).nodes).Perm
        (g.nodes ++ (k.nodes ++ r.nodes)) := by
      by_cases hk : x ∈ k.nodes
      · rw [addLast_of_not_mem fun hr => hf.2.2.2 x hk x hr rfl, ← List.append_assoc]
        exact (ihk hf.2.1 hk).append_right _
      · rw [addLast_of_not_mem hk]
        have hr : x ∈ r.nodes := by grind [nodes_node]
        exact ((ihr hf.2.2.1 hr).append_left _).trans (List.perm_append_comm_assoc ..)
    exact (hr.cons y).trans List.perm_middle.symm

theorem kidsOf_append (hy : y ∉ f.nodes) : (f.append g).kidsOf y = g.kidsOf y := by
  induction f with
  | nil => rfl
  | node z k r _ ihr =>
    simp only [nodes_node, List.mem_cons, List.mem_append, not_or] at hy
    rw [node_append, kidsOf, if_neg (Ne.symm hy.1), kidsOf_of_not_mem hy.2.1, ihr hy.2.2, nil_append]

/-- The new siblings have the children they come with. -/
theorem kidsOf_addLast_new (hf : f.nodes.Nodup) (hx : x ∈ f.nodes) (hy : y ∉ f.nodes) :
    (f.addLast x g).kidsOf y = g.kidsOf y := by
  fun_induction addLast f x g with
  | case1 => simp at hx
  | case2 k r x g =>
    simp only [nodes_node, List.mem_cons, List.mem_append, not_or] at hy
    rw [kidsOf, if_neg (Ne.symm hy.1), kidsOf_append hy.2.1, kidsOf_of_not_mem hy.2.2, append_nil]
  | case3 z k r x g hne ihk ihr =>
    simp only [nodes_node, List.mem_cons, List.mem_append, not_or] at hy
    simp only [nodes_node, List.nodup_cons, List.nodup_append] at hf
    rw [kidsOf, if_neg (Ne.symm hy.1)]
    by_cases hk : x ∈ k.nodes
    · have hr : x ∉ r.nodes := fun hr => hf.2.2.2 x hk x hr rfl
      rw [addLast_of_not_mem hr, kidsOf_of_not_mem hy.2.2, append_nil, ihk hf.2.1 hk hy.2.1]
    · have hr : x ∈ r.nodes := by grind [nodes_node]
      rw [addLast_of_not_mem hk, kidsOf_of_not_mem hy.2.1, nil_append, ihr hf.2.2.1 hr hy.2.2]

theorem kidsOf_addLast_self (hf : f.nodes.Nodup) (hx : x ∈ f.nodes) :
    (f.addLast x g).kidsOf x = (f.kidsOf x).append g := by
  fun_induction addLast f x g with
  | case1 => simp at hx
  | case2 k r x g => simp [kidsOf]
  | case3 z k r x g hne ihk ihr =>
    simp only [nodes_node, List.nodup_cons, List.nodup_append] at hf
    rw [kidsOf, if_neg hne, kidsOf, if_neg hne]
    by_cases hk : x ∈ k.nodes
    · have hr : x ∉ r.nodes := fun hr => hf.2.2.2 x hk x hr rfl
      rw [addLast_of_not_mem hr, kidsOf_of_not_mem hr, append_nil, append_nil, ihk hf.2.1 hk]
    · have hr : x ∈ r.nodes := by grind [nodes_node]
      rw [addLast_of_not_mem hk, kidsOf_of_not_mem hk, nil_append, nil_append, ihr hf.2.2.1 hr]

/-- Siblings put last twice. -/
theorem addLast_addLast (hf : f.nodes.Nodup) (hg : x ∉ g.nodes) :
    (f.addLast x g).addLast x h = f.addLast x (g.append h) := by
  fun_induction addLast f x g with
  | case1 => rfl
  | case2 k r x g => simp [addLast, append_assoc]
  | case3 y k r x g hne ihk ihr =>
    simp only [nodes_node, List.nodup_cons, List.nodup_append] at hf
    rw [addLast, if_neg hne, addLast, if_neg hne, ihk hf.2.1 hg, ihr hf.2.2.1 hg]

theorem append_addLast (hy : y ∉ f.nodes) : (f.append g).addLast y h = f.append (g.addLast y h) := by
  induction f with
  | nil => rfl
  | node z k r _ ihr =>
    simp only [nodes_node, List.mem_cons, List.mem_append, not_or] at hy
    rw [node_append, addLast, if_neg (Ne.symm hy.1), addLast_of_not_mem hy.2.1, ihr hy.2.2]
    rfl

/-- Children are put into a node that was put last. -/
theorem addLast_into (hf : f.nodes.Nodup) (hx : x ∈ f.nodes) (hy : y ∉ f.nodes) :
    (f.addLast x (node y nil nil)).addLast y g = f.addLast x (node y g nil) := by
  induction f with
  | nil => rfl
  | node z k r ihk ihr =>
    simp only [nodes_node, List.mem_cons, List.mem_append, not_or] at hx hy
    simp only [nodes_node, List.nodup_cons, List.nodup_append] at hf
    rw [addLast, addLast]
    split
    · rw [addLast, if_neg (Ne.symm hy.1), append_addLast hy.2.1, addLast_of_not_mem hy.2.2]
      simp [addLast]
    case isFalse h =>
      rw [addLast, if_neg (Ne.symm hy.1)]
      rcases hx with hx | hx | hx
      · exact absurd hx.symm h
      · have hr : x ∉ r.nodes := fun hr => hf.2.2.2 x hx x hr rfl
        rw [ihk hf.2.1 hx hy.2.1, addLast_of_not_mem hr, addLast_of_not_mem hr,
          addLast_of_not_mem hy.2.2]
      · have hk : x ∉ k.nodes := fun hk => hf.2.2.2 x hk x hx rfl
        rw [ihr hf.2.2.1 hx hy.2.2, addLast_of_not_mem hk, addLast_of_not_mem hk,
          addLast_of_not_mem hy.2.1]

end LinkedForest.Forest

namespace Siblings

open LinkedForest Forest

/-- The pointers of a node. -/
structure Links (ι : Type*) where
  parent : Option ι
  prev : Option ι
  next : Option ι
  first : Option ι
  last : Option ι
deriving DecidableEq

variable {ι : Type*}

/-- The siblings `f` have the parent `p`, come after `q`, and are linked. -/
def Linked (h : ι → Links ι) (p q : Option ι) : Forest ι → Prop
  | nil => True
  | node x k r => h x = ⟨p, q, r.head, k.head, k.lastOr none⟩ ∧ Linked h (some x) none k ∧
      Linked h p (some x) r

variable [DecidableEq ι]

/-- The node `new` is put behind the children of `x`. -/
def pushLast (h : ι → Links ι) (x new : ι) (z : ι) : Links ι :=
  if z = new then ⟨some x, (h x).last, none, none, none⟩
  else
    { h z with
      next := if (h x).last = some z then some new else (h z).next
      first := if z = x ∧ (h x).last = none then some new else (h z).first
      last := if z = x then some new else (h z).last }

/-- The node `x` is taken out from between its siblings. -/
def unlink (h : ι → Links ι) (x : ι) (z : ι) : Links ι :=
  { h z with
    prev := if (h x).next = some z then (h x).prev else (h z).prev
    next := if (h x).prev = some z then (h x).next else (h z).next
    first := if (h x).parent = some z ∧ (h z).first = some x then (h x).next else (h z).first
    last := if (h x).parent = some z ∧ (h z).last = some x then (h x).prev else (h z).last }

variable {h u : ι → Links ι} {p q : Option ι} {f g k r : Forest ι} {x y z new : ι}

omit [DecidableEq ι] in
/-- Only the pointers of the nodes matter. -/
theorem Linked.congr (hl : Linked h p q f) (heq : ∀ y ∈ f.nodes, u y = h y) : Linked u p q f := by
  induction f generalizing p q with
  | nil => trivial
  | node x k r ihk ihr =>
    obtain ⟨hx, hk, hr⟩ := hl
    exact ⟨(heq x (by simp)).trans hx, ihk hk fun y hy => heq y (by simp [hy]),
      ihr hr fun y hy => heq y (by simp [hy])⟩

omit [DecidableEq ι] in
/-- The first and the last child of a node are below it. -/
theorem Linked.child_mem (hl : Linked h p q f) (hx : x ∈ f.nodes) :
    (∀ y, (h x).first = some y → y ∈ f.nodes) ∧ ∀ y, (h x).last = some y → y ∈ f.nodes := by
  induction f generalizing p q with
  | nil => simp at hx
  | node z k r ihk ihr =>
    obtain ⟨hz, hk, hr⟩ := hl
    simp only [nodes_node, List.mem_cons, List.mem_append] at hx ⊢
    rcases hx with rfl | hx | hx
    · simp only [hz]
      exact ⟨fun y hy => .inr (.inl (mem_nodes_of_head hy)),
        fun y hy => .inr (.inl (tops_subset (mem_tops_of_lastOr hy)))⟩
    · exact ⟨fun y hy => .inr (.inl ((ihk hk hx).1 y hy)), fun y hy => .inr (.inl ((ihk hk hx).2 y hy))⟩
    · exact ⟨fun y hy => .inr (.inr ((ihr hr hx).1 y hy)), fun y hy => .inr (.inr ((ihr hr hx).2 y hy))⟩

/-! ## Putting a node last -/

omit [DecidableEq ι] in
theorem head_append_node : (k.append (node new nil nil)).head = some (k.head.getD new) := by
  cases k <;> rfl

omit [DecidableEq ι] in
theorem lastOr_append_node : (k.append (node new nil nil)).lastOr q = some new := by
  induction k generalizing q with
  | nil => rfl
  | node x k r _ ihr => exact ihr

/-- A node is put behind linked siblings, the last of which points to it. -/
theorem Linked.snoc (hl : Linked h p q f) (hf : f.nodes.Nodup)
    (hnew : u new = ⟨p, f.lastOr q, none, none, none⟩)
    (hu : ∀ z ∈ f.nodes, u z = if f.lastOr none = some z then { h z with next := some new } else h z) :
    Linked u p q (f.append (node new nil nil)) := by
  induction f generalizing q with
  | nil => exact ⟨hnew, trivial, trivial⟩
  | node x k r ihk ihr =>
    obtain ⟨hx, hk, hr⟩ := hl
    simp only [nodes_node, List.nodup_cons, List.mem_append, not_or, List.nodup_append] at hf
    obtain ⟨⟨hxk, hxr⟩, -, hrn, hkr⟩ := hf
    have hlast : (node x k r).lastOr none = some x ↔ r = nil := by
      cases r with
      | nil => simp
      | node y k' r' =>
        obtain ⟨w, hw, hlast⟩ := lastOr_mem (q := some x) (f := node y k' r') (by simp)
        have hne : w ≠ x := fun h => hxr (h ▸ tops_subset hw)
        simp only [lastOr_node] at hlast ⊢
        simp [hlast, hne]
    have hin : ∀ z, (node x k r).lastOr none = some z → z ≠ x → z ∈ r.nodes := fun z hz hne => by
      rw [lastOr_node, lastOr_eq_or, Option.or_eq_some_iff] at hz
      obtain hz | ⟨-, hz⟩ := hz
      · exact tops_subset (mem_tops_of_lastOr hz)
      · exact absurd (Option.some.inj hz).symm hne
    refine ⟨?_, hk.congr fun z hz => ?_, ihr hr hrn hnew fun z hz => ?_⟩
    · rw [hu x (by simp), hx, head_append_node]
      by_cases hnil : r = nil
      · rw [if_pos (hlast.2 hnil), hnil]
        rfl
      · rw [if_neg fun h => hnil (hlast.1 h)]
        cases r <;> simp_all
    · refine (hu z (by simp [hz])).trans (if_neg fun h => ?_)
      exact hkr z hz z (hin z h fun he => hxk (he ▸ hz)) rfl
    · rw [hu z (by simp [hz]), lastOr_node, lastOr_eq_or]
      have hne : x ≠ z := fun h => hxr (h ▸ hz)
      cases hlo : r.lastOr none <;> simp [hne]

theorem head_addLast : (f.addLast x g).head = f.head := by
  cases f with
  | nil => rfl
  | node y k r => unfold Forest.addLast; split <;> rfl

theorem lastOr_addLast : (f.addLast x g).lastOr q = f.lastOr q := by
  induction f generalizing q with
  | nil => rfl
  | node y k r _ ihr =>
    unfold Forest.addLast
    split
    · rfl
    · exact ihr

theorem Linked.pushLast (hl : Linked h p q f) (hf : f.nodes.Nodup) (hx : x ∈ f.nodes)
    (hnew : new ∉ f.nodes) : Linked (pushLast h x new) p q (f.addLast x (node new nil nil)) := by
  induction f generalizing p q with
  | nil => simp at hx
  | node y k r ihk ihr =>
    obtain ⟨hy, hk, hr⟩ := hl
    simp only [nodes_node, List.nodup_cons, List.mem_append, not_or, List.nodup_append] at hf
    obtain ⟨⟨hyk, hyr⟩, hkn, hrn, hkr⟩ := hf
    simp only [nodes_node, List.mem_cons, List.mem_append, not_or] at hx hnew
    obtain ⟨hny, hnk, hnr⟩ := hnew
    -- nothing changes but in `x`, in its last child, and in the new node
    have hother : ∀ z, z ≠ new → z ≠ x → (h x).last ≠ some z → Siblings.pushLast h x new z = h z :=
      fun z h₁ h₂ h₃ => by simp [Siblings.pushLast, h₁, h₂, h₃]
    rw [Forest.addLast]
    split
    case isTrue hyx =>
      subst hyx
      have hlast : (h y).last = k.lastOr none := by rw [hy]
      refine ⟨?_, hk.snoc hkn ?_ fun z hz => ?_, hr.congr fun z hz => hother z ?_ ?_ ?_⟩
      · have hyl : k.lastOr none ≠ some y := fun h => hyk (tops_subset (mem_tops_of_lastOr h))
        rw [Siblings.pushLast, if_neg (Ne.symm hny), hlast, if_neg hyl, hy, head_append_node,
          lastOr_append_node]
        cases k with
        | nil => simp
        | node a k' r' =>
          obtain ⟨w, -, hw⟩ := lastOr_mem (q := none) (f := node a k' r') (by simp)
          simp only [hw]
          simp
      · simp [Siblings.pushLast, hlast]
      · have hzn : z ≠ new := fun h => hnk (h ▸ hz)
        have hzy : z ≠ y := fun h => hyk (h ▸ hz)
        simp only [Siblings.pushLast, hzn, hzy, if_false, false_and, hlast]
        split <;> rfl
      · exact fun h => hnr (h ▸ hz)
      · exact fun h => hyr (h ▸ hz)
      · rw [hlast]
        exact fun h => hkr z (tops_subset (mem_tops_of_lastOr h)) z hz rfl
    case isFalse hyx =>
      rcases hx with rfl | hx | hx
      · exact absurd rfl hyx
      · have hlast := (hk.child_mem hx).2
        rw [addLast_of_not_mem fun h => hkr x hx x h rfl]
        refine ⟨?_, ihk hk hkn hx hnk, hr.congr fun z hz => hother z ?_ ?_ ?_⟩
        · rw [hother y (Ne.symm hny) hyx fun h => hyk (hlast y h), hy, head_addLast, lastOr_addLast]
        · exact fun h => hnr (h ▸ hz)
        · exact fun h => hkr x hx z hz h.symm
        · exact fun h => hkr z (hlast z h) z hz rfl
      · have hlast := (hr.child_mem hx).2
        rw [addLast_of_not_mem fun h => hkr x h x hx rfl]
        refine ⟨?_, hk.congr fun z hz => hother z ?_ ?_ ?_, ihr hr hrn hx hnr⟩
        · rw [hother y (Ne.symm hny) hyx fun h => hyr (hlast y h), hy, head_addLast]
        · exact fun h => hnk (h ▸ hz)
        · exact fun h => hkr z hz x hx h
        · exact fun h => hkr z hz z (hlast z h) rfl

/-! ## Taking a node out -/

omit [DecidableEq ι] in
/-- The other pointers of a node lead to nodes of the forest, or to what is around it. -/
theorem Linked.links_mem (hl : Linked h p q f) (hx : x ∈ f.nodes) :
    (∀ z, (h x).next = some z → z ∈ f.nodes) ∧
      (∀ z, (h x).prev = some z → z ∈ f.nodes ∨ x ∈ f.tops ∧ q = some z) ∧
      ∀ z, (h x).parent = some z → z ∈ f.nodes ∨ x ∈ f.tops ∧ p = some z := by
  induction f generalizing p q with
  | nil => simp at hx
  | node y k r ihk ihr =>
    obtain ⟨hy, hk, hr⟩ := hl
    simp only [nodes_node, List.mem_cons, List.mem_append, tops_node] at hx ⊢
    rcases hx with rfl | hx | hx
    · simp only [hy]
      exact ⟨fun z hz => .inr (.inr (mem_nodes_of_head hz)), fun z hz => .inr ⟨.inl trivial, hz⟩,
        fun z hz => .inr ⟨.inl trivial, hz⟩⟩
    · obtain ⟨hnext, hprev, hpar⟩ := ihk hk hx
      refine ⟨fun z hz => .inr (.inl (hnext z hz)), fun z hz => ?_, fun z hz => ?_⟩
      · obtain h | ⟨-, h⟩ := hprev z hz
        · exact .inl (.inr (.inl h))
        · simp at h
      · obtain h | ⟨-, h⟩ := hpar z hz
        · exact .inl (.inr (.inl h))
        · exact .inl (.inl (Option.some.inj h).symm)
    · obtain ⟨hnext, hprev, hpar⟩ := ihr hr hx
      refine ⟨fun z hz => .inr (.inr (hnext z hz)), fun z hz => ?_, fun z hz => ?_⟩
      · obtain h | ⟨-, h⟩ := hprev z hz
        · exact .inl (.inr (.inr h))
        · exact .inl (.inl (Option.some.inj h).symm)
      · obtain h | ⟨htop, h⟩ := hpar z hz
        · exact .inl (.inr (.inr h))
        · exact .inr ⟨.inr htop, h⟩

theorem without_eq_of_not_mem (hx : x ∉ f.nodes) : f.without (· = x) = f :=
  without_of_forall fun _ hy => decide_eq_false fun h => hx (h ▸ hy)

theorem head_without (hl : Linked h p q f) (hf : f.nodes.Nodup) :
    (f.without (· = x)).head = if f.head = some x then (h x).next else f.head := by
  cases f with
  | nil => rfl
  | node y k r =>
    simp only [nodes_node, List.nodup_cons, List.mem_append, not_or] at hf
    by_cases hyx : y = x
    · subst hyx
      simp [Forest.without, without_eq_of_not_mem hf.1.2, hl.1]
    · simp [Forest.without, hyx]

theorem lastOr_without (hl : Linked h p q f) (hf : f.nodes.Nodup) (hq : q ≠ some x) :
    (f.without (· = x)).lastOr q = if f.lastOr q = some x then (h x).prev else f.lastOr q := by
  induction f generalizing q with
  | nil => simp [Forest.without, hq]
  | node y k r _ ihr =>
    obtain ⟨hy, -, hr⟩ := hl
    simp only [nodes_node, List.nodup_cons, List.mem_append, not_or, List.nodup_append] at hf
    by_cases hyx : y = x
    · subst hyx
      simp only [Forest.without, decide_true, if_true, without_eq_of_not_mem hf.1.2, lastOr_node, hy]
      cases r with
      | nil => simp
      | node w k' r' =>
        obtain ⟨v, hv, hlast⟩ := lastOr_mem (q := some y) (f := node w k' r') (by simp)
        have hne : v ≠ y := fun h => hf.1.2 (h ▸ tops_subset hv)
        simp only [lastOr_node] at hlast ⊢
        simp [hlast, hne]
    · simp only [Forest.without, hyx, decide_false, Bool.false_eq_true, if_false, lastOr_node]
      exact ihr hr hf.2.2.1 fun h => hyx (Option.some.inj h)

omit [DecidableEq ι] in
/-- The node before the siblings comes right before the first of them. -/
theorem Linked.prev_eq (hl : Linked h p (some y) f) (hf : f.nodes.Nodup) (hy : y ∉ f.nodes)
    (hx : x ∈ f.tops) : (h x).prev = some y ↔ f.head = some x := by
  cases f with
  | nil => simp at hx
  | node w k r =>
    obtain ⟨hw, -, hr⟩ := hl
    simp only [nodes_node, List.nodup_cons, List.mem_append, not_or, List.mem_cons] at hf hy
    rcases List.mem_cons.1 hx with rfl | hx
    · simp [hw]
    · have hwx : w ≠ x := fun h => hf.1.2 (h ▸ tops_subset hx)
      simp only [head_node, Option.some.injEq, hwx, iff_false]
      intro h
      obtain hz | ⟨-, hz⟩ := (hr.links_mem (tops_subset hx)).2.1 y h
      · exact hy.2.2 hz
      · exact hy.1 (Option.some.inj hz).symm

/-- One of linked siblings is taken out, and those before and after it point past it. -/
theorem Linked.unlinkTop (hl : Linked h p q f) (hf : f.nodes.Nodup) (hx : x ∈ f.tops)
    (hq : ∀ w ∈ f.nodes, q ≠ some w)
    (hu : ∀ z ∈ f.nodes, z ≠ x → u z = { h z with
      prev := if (h x).next = some z then (h x).prev else (h z).prev
      next := if (h x).prev = some z then (h x).next else (h z).next }) :
    Linked u p q (f.without (· = x)) := by
  induction f generalizing q with
  | nil => trivial
  | node y k r _ ihr =>
    have hall := hl
    obtain ⟨hy, hk, hr⟩ := hl
    simp only [nodes_node, List.nodup_cons, List.mem_append, not_or, List.nodup_append] at hf
    obtain ⟨⟨hyk, hyr⟩, hkn, hrn, hkr⟩ := hf
    by_cases hyx : y = x
    · subst hyx
      rw [Forest.without, if_pos (by simp), without_eq_of_not_mem hyr]
      cases r with
      | nil => trivial
      | node w k' r' =>
        obtain ⟨hw, hk', hr'⟩ := hr
        simp only [nodes_node, List.nodup_cons, List.mem_append, not_or] at hrn
        have hothers : ∀ z ∈ k'.nodes ++ r'.nodes, u z = h z := fun z hz => by
          have hzy : z ≠ y := fun h => hyr (by grind [nodes_node])
          have hwz : w ≠ z := fun h => by grind
          have hqz : q ≠ some z := hq z (by grind [nodes_node])
          rw [hu z (by grind [nodes_node]) hzy]
          simp [hy, hwz, hqz]
        refine ⟨?_, hk'.congr fun z hz => hothers z (by simp [hz]),
          hr'.congr fun z hz => hothers z (by simp [hz])⟩
        have hwy : w ≠ y := fun h => hyr (by simp [h])
        rw [hu w (by simp) hwy]
        simp [hy, hw, hq w (by simp)]
    · have hxr : x ∈ r.tops := by simpa [Ne.symm hyx] using hx
      obtain ⟨hnext, hprev, -⟩ := hr.links_mem (tops_subset hxr)
      rw [Forest.without, if_neg (by simpa using hyx)]
      refine ⟨?_, ?_, ihr hr hrn hxr (fun w hw h => hyr (Option.some.inj h ▸ hw)) fun z hz => ?_⟩
      · have hiff := hr.prev_eq hrn hyr hxr
        have hxk : x ∉ k.nodes := fun h => hkr x h x (tops_subset hxr) rfl
        have hny : (h x).next ≠ some y := fun h => hyr (hnext y h)
        rw [hu y (by simp) hyx, without_eq_of_not_mem hxk, head_without hr hrn, hy, if_neg hny]
        simp only [hiff]
      · have hxk : x ∉ k.nodes := fun h => hkr x h x (tops_subset hxr) rfl
        rw [without_eq_of_not_mem hxk]
        refine hk.congr fun z hz => ?_
        have hnz : (h x).next ≠ some z := fun h => hkr z hz z (hnext z h) rfl
        have hpz : (h x).prev ≠ some z := fun h => by
          obtain h | ⟨-, h⟩ := hprev z h
          · exact hkr z hz z h rfl
          · exact hyk (Option.some.inj h ▸ hz)
        rw [hu z (by simp [hz]) fun h => hxk (h ▸ hz), if_neg hnz, if_neg hpz]
      · exact hu z (by simp [hz])

omit [DecidableEq ι] in
theorem Linked.parent_of_top (hl : Linked h p q f) (hx : x ∈ f.tops) : (h x).parent = p := by
  induction f generalizing q with
  | nil => simp at hx
  | node y k r _ ihr =>
    rcases List.mem_cons.1 hx with rfl | hx
    · rw [hl.1]
    · exact ihr hl.2.2 hx

/-- A node below another one is taken out. -/
theorem Linked.unlink (hl : Linked h p q f) (hf : f.nodes.Nodup) (hx : x ∈ f.nodes)
    (htop : x ∉ f.tops) : Linked (unlink h x) p q (f.without (· = x)) := by
  induction f generalizing p q with
  | nil => trivial
  | node y k r ihk ihr =>
    obtain ⟨hy, hk, hr⟩ := hl
    simp only [nodes_node, List.nodup_cons, List.mem_append, not_or, List.nodup_append] at hf
    obtain ⟨⟨hyk, hyr⟩, hkn, hrn, hkr⟩ := hf
    simp only [nodes_node, List.mem_cons, List.mem_append, tops_node, not_or] at hx htop
    have hyx : y ≠ x := fun h => htop.1 h.symm
    rw [Forest.without, if_neg (by simpa using hyx)]
    -- a node that the pointers of `x` do not lead to keeps its own
    have hother : ∀ z, (h x).next ≠ some z → (h x).prev ≠ some z → (h x).parent ≠ some z →
        Siblings.unlink h x z = h z := fun z h₁ h₂ h₃ => by simp [Siblings.unlink, h₁, h₂, h₃]
    rcases hx with hx | hx | hx
    · exact absurd hx htop.1
    · have hxr : x ∉ r.nodes := fun h => hkr x hx x h rfl
      obtain ⟨hnext, hprev, hpar⟩ := hk.links_mem hx
      have hprev' : ∀ z, (h x).prev = some z → z ∈ k.nodes := fun z hz => by
        obtain h | ⟨-, h⟩ := hprev z hz
        · exact h
        · simp at h
      rw [without_eq_of_not_mem hxr]
      have hrest : Linked (Siblings.unlink h x) p (some y) r := by
        refine hr.congr fun z hz => hother z (fun h => hkr z (hnext z h) z hz rfl)
          (fun h => hkr z (hprev' z h) z hz rfl) fun h => ?_
        obtain h | ⟨-, h⟩ := hpar z h
        · exact hkr z h z hz rfl
        · exact hyr (Option.some.inj h ▸ hz)
      by_cases hxk : x ∈ k.tops
      · have hparent := hk.parent_of_top hxk
        refine ⟨?_, hk.unlinkTop hkn hxk (by simp) fun z hz hzx => ?_, hrest⟩
        · have hny : (h x).next ≠ some y := fun h => hyk (hnext y h)
          have hpy : (h x).prev ≠ some y := fun h => hyk (hprev' y h)
          rw [head_without hk hkn, lastOr_without hk hkn (by simp), Siblings.unlink, hy, hparent]
          simp [hny, hpy]
        · have hyz : y ≠ z := fun h => hyk (h ▸ hz)
          simp [Siblings.unlink, hparent, hyz]
      · have hpar' : ∀ z, (h x).parent = some z → z ∈ k.nodes := fun z hz => by
          obtain h | ⟨h, -⟩ := hpar z hz
          · exact h
          · exact absurd h hxk
        refine ⟨?_, ihk hk hkn hx hxk, hrest⟩
        have hhead : k.head ≠ some x := fun h => hxk (head_mem_tops h)
        have hlast : k.lastOr none ≠ some x := fun h => hxk (mem_tops_of_lastOr h)
        rw [hother y (fun h => hyk (hnext y h)) (fun h => hyk (hprev' y h))
          fun h => hyk (hpar' y h), hy, head_without hk hkn, lastOr_without hk hkn (by simp),
          if_neg hhead, if_neg hlast]
    · have hxk : x ∉ k.nodes := fun h => hkr x h x hx rfl
      obtain ⟨hnext, hprev, hpar⟩ := hr.links_mem hx
      have hpar' : ∀ z, (h x).parent = some z → z ∈ r.nodes := fun z hz => by
        obtain h | ⟨h, -⟩ := hpar z hz
        · exact h
        · exact absurd h htop.2
      have hprev' : ∀ z, (h x).prev = some z → z ∈ r.nodes := fun z hz => by
        obtain h | ⟨h, -⟩ := hprev z hz
        · exact h
        · exact absurd h htop.2
      rw [without_eq_of_not_mem hxk]
      have hhead : r.head ≠ some x := fun h => htop.2 (head_mem_tops h)
      refine ⟨?_, hk.congr fun z hz => hother z (fun h => hkr z hz z (hnext z h) rfl)
        (fun h => hkr z hz z (hprev' z h) rfl) fun h => hkr z hz z (hpar' z h) rfl,
        ihr hr hrn hx htop.2⟩
      rw [hother y (fun h => hyr (hnext y h)) (fun h => hyr (hprev' y h))
        fun h => hyr (hpar' y h), hy, head_without hr hrn, if_neg hhead]

/-! ## What linked siblings are like -/

/-- Following next siblings gives a list. -/
def Chain (h : ι → Links ι) : Option ι → List ι → Prop
  | o, [] => o = none
  | o, x :: xs => o = some x ∧ Chain h (h x).next xs

/-- The pointers lead from node to node and fit to each other, and every node but the root is among
the children of its parent. -/
structure WellLinked (h : ι → Links ι) (root : ι) (live : ι → Prop) : Prop where
  root_mem : live root
  root_eq : (h root).parent = none ∧ (h root).prev = none ∧ (h root).next = none
  children : ∀ x, live x → ∃ l, Chain h (h x).first l ∧ (h x).last = l.getLast? ∧ l.Nodup ∧
    ∀ y ∈ l, live y ∧ (h y).parent = some x
  next_prev : ∀ x y, live x → (h x).next = some y → live y ∧ (h y).prev = some x
  prev_next : ∀ x y, live x → (h x).prev = some y → live y ∧ (h y).next = some x
  owner : ∀ x, live x → x ≠ root → ∃ z l, live z ∧ (h x).parent = some z ∧
    Chain h (h z).first l ∧ x ∈ l

section chain

omit [DecidableEq ι]

theorem Linked.chain (hl : Linked h p q f) : Chain h f.head f.tops := by
  induction f generalizing q with
  | nil => rfl
  | node x k r _ ihr => exact ⟨rfl, by simpa [hl.1] using ihr hl.2.2⟩

theorem lastOr_eq_getLast? : f.lastOr none = f.tops.getLast? := by
  have hor : ∀ q, f.lastOr q = f.tops.getLast?.or q := by
    induction f with
    | nil => simp
    | node x k r _ ihr =>
      intro q
      rw [lastOr_node, ihr]
      cases hr : r.tops <;> simp [hr, List.getLast?_cons]
  simpa using hor none

theorem tops_sublist : f.tops.Sublist f.nodes := by
  induction f with
  | nil => simp
  | node x k r _ ihr => exact (ihr.trans (List.sublist_append_right _ _)).cons_cons _

theorem Linked.next_prev (hl : Linked h p q f) (hx : x ∈ f.nodes) (hy : (h x).next = some y) :
    (h y).prev = some x := by
  induction f generalizing p q with
  | nil => simp at hx
  | node z k r ihk ihr =>
    obtain ⟨hz, hk, hr⟩ := hl
    simp only [nodes_node, List.mem_cons, List.mem_append] at hx
    rcases hx with rfl | hx | hx
    · cases r with
      | nil => simp [hz] at hy
      | node w k' r' =>
        obtain rfl : w = y := by simpa [hz] using hy
        simp [hr.1]
    · exact ihk hk hx
    · exact ihr hr hx

theorem Linked.prev_next (hl : Linked h p q f) (hx : x ∈ f.nodes) (hy : (h x).prev = some y) :
    q = some y ∧ f.head = some x ∨ y ∈ f.nodes ∧ (h y).next = some x := by
  induction f generalizing p q with
  | nil => simp at hx
  | node z k r ihk ihr =>
    obtain ⟨hz, hk, hr⟩ := hl
    simp only [nodes_node, List.mem_cons, List.mem_append] at hx ⊢
    rcases hx with rfl | hx | hx
    · exact .inl ⟨by simpa [hz] using hy, rfl⟩
    · obtain ⟨h, -⟩ | ⟨hin, hnext⟩ := ihk hk hx
      · simp at h
      · exact .inr ⟨.inr (.inl hin), hnext⟩
    · obtain ⟨h, hhead⟩ | ⟨hin, hnext⟩ := ihr hr hx
      · obtain rfl := Option.some.inj h
        exact .inr ⟨.inl rfl, by rw [hz, hhead]⟩
      · exact .inr ⟨.inr (.inr hin), hnext⟩

end chain

/-- The children of a node are linked. -/
theorem Linked.kidsOf (hl : Linked h p q f) (hf : f.nodes.Nodup) (hx : x ∈ f.nodes) :
    Linked h (some x) none (f.kidsOf x) ∧ (h x).first = (f.kidsOf x).head ∧
      (h x).last = (f.kidsOf x).lastOr none ∧ (f.kidsOf x).nodes.Nodup := by
  induction f generalizing p q with
  | nil => simp at hx
  | node z k r ihk ihr =>
    obtain ⟨hz, hk, hr⟩ := hl
    simp only [nodes_node, List.nodup_cons, List.nodup_append] at hf
    simp only [nodes_node, List.mem_cons, List.mem_append] at hx
    rw [Forest.kidsOf]
    split
    case isTrue h =>
      subst h
      exact ⟨hk, by rw [hz], by rw [hz], hf.2.1⟩
    case isFalse h =>
      rcases hx with hx | hx | hx
      · exact absurd hx.symm h
      · rw [kidsOf_of_not_mem fun hr => hf.2.2.2 x hx x hr rfl, append_nil]
        exact ihk hk hf.2.1 hx
      · rw [kidsOf_of_not_mem fun hk => hf.2.2.2 x hk x hx rfl]
        exact ihr hr hf.2.2.1 hx

/-- Every node is one of the siblings or a child of another one. -/
theorem Linked.owner (hl : Linked h p q f) (hf : f.nodes.Nodup) (hx : x ∈ f.nodes) :
    x ∈ f.tops ∨ ∃ z ∈ f.nodes, (h x).parent = some z ∧ x ∈ (f.kidsOf z).tops := by
  induction f generalizing p q with
  | nil => simp at hx
  | node z k r ihk ihr =>
    obtain ⟨hz, hk, hr⟩ := hl
    simp only [nodes_node, List.nodup_cons, List.nodup_append, List.mem_append, not_or] at hf
    simp only [nodes_node, List.mem_cons, List.mem_append, tops_node] at hx ⊢
    rcases hx with rfl | hx | hx
    · exact .inl (.inl rfl)
    · obtain htop | ⟨w, hw, hpar, hxw⟩ := ihk hk hf.2.1 hx
      · exact .inr ⟨z, .inl rfl, hk.parent_of_top htop, by simpa [Forest.kidsOf] using htop⟩
      · have hzw : z ≠ w := fun h => hf.1.1 (h ▸ hw)
        exact .inr ⟨w, .inr (.inl hw), hpar, by simp [Forest.kidsOf, hzw, hxw]⟩
    · obtain htop | ⟨w, hw, hpar, hxw⟩ := ihr hr hf.2.2.1 hx
      · exact .inl (.inr htop)
      · have hzw : z ≠ w := fun h => hf.1.2 (h ▸ hw)
        exact .inr ⟨w, .inr (.inr hw), hpar, by simp [Forest.kidsOf, hzw, hxw]⟩

/-- The pointers of a tree are well linked. -/
theorem Linked.wellLinked {root : ι} (hl : Linked h none none (node root k nil))
    (hf : (node root k nil).nodes.Nodup) : WellLinked h root (· ∈ (node root k nil).nodes) where
  root_mem := by simp
  root_eq := by simp [hl.1]
  children x hx := by
    obtain ⟨hk, hfirst, hlast, hnd⟩ := hl.kidsOf hf hx
    refine ⟨_, hfirst ▸ hk.chain, hlast.trans lastOr_eq_getLast?, hnd.sublist tops_sublist,
      fun y hy => ⟨kidsOf_subset (tops_subset hy), hk.parent_of_top hy⟩⟩
  next_prev x y hx hy := ⟨(hl.links_mem hx).1 y hy, hl.next_prev hx hy⟩
  prev_next x y hx hy := (hl.prev_next hx hy).elim (fun h => nomatch h.1) id
  owner x hx hne := by
    obtain htop | ⟨z, hz, hpar, hxz⟩ := hl.owner hf hx
    · exact absurd (by simpa using htop) hne
    · obtain ⟨hk, hfirst, -⟩ := hl.kidsOf hf hz
      exact ⟨z, _, hz, hpar, hfirst ▸ hk.chain, hxz⟩

end Siblings
