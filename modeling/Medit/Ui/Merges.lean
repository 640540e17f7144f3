import Medit.Library.Machine
import Medit.Ui.Model

/-!
# The merges of a UI description

What is on the lists of the merges is in the tree, and a merge that is removed leaves the tree as if
its nodes had not been there.

## Main definitions

* `MooUiXml.Good` — the lists of the merges fit to the tree.

## Main results

* `MooUiXml.Good.step` — every call keeps this.
* `MooUiXml.merges_right` — what the lists are, what is inserted, and what is removed.
-/

namespace Medit

open LinkedForest Function

/-! ## Nodes in memory -/

theorem placeNodes_spec (M : KeyedQueue.Allocator) (g : Forest MooUiNode) (live : List ℕ)
    (data : ℕ → MooUiNode) :
    (placeNodes M g live data).1.nodes.Nodup ∧
      (∀ x ∈ (placeNodes M g live data).1.nodes, x ∉ live) ∧
      (placeNodes M g live data).1.map (placeNodes M g live data).2 = g ∧
      ∀ x, x ∉ (placeNodes M g live data).1.nodes →
        (placeNodes M g live data).2 x = data x := by
  induction g generalizing live data with
  | nil => simp [placeNodes, Forest.map]
  | node d k r ihk ihr =>
    set x := M.get live.length live with hx
    have hfresh : x ∉ live := M.fresh _ _
    obtain ⟨hnk, hlk, hmk, hdk⟩ := ihk (x :: live) (update data x d)
    set below := placeNodes M k (x :: live) (update data x d) with hbelow
    obtain ⟨hnr, hlr, hmr, hdr⟩ := ihr (x :: (below.1.nodes ++ live)) below.2
    set after := placeNodes M r (x :: (below.1.nodes ++ live)) below.2 with hafter
    have hplaced : placeNodes M (.node d k r) live data = (.node x below.1 after.1, after.2) := rfl
    have hxk : x ∉ below.1.nodes := fun h => by simpa using hlk x h
    have hxr : x ∉ after.1.nodes := fun h => by simpa using hlr x h
    have hmap : below.1.map after.2 = below.1.map below.2 :=
      Forest.map_congr fun y hy => hdr y fun h => by simpa [hy] using hlr y h
    rw [hplaced]
    refine ⟨?_, ?_, ?_, ?_⟩
    · simp only [Forest.nodes_node, List.nodup_cons, List.mem_append, List.nodup_append]
      refine ⟨by grind, hnk, hnr, fun y hy z hz hyz => ?_⟩
      have hnot := hlr z hz
      simp [← hyz, hy] at hnot
    · intro y hy
      simp only [Forest.nodes_node, List.mem_cons, List.mem_append] at hy
      grind
    · simp only [Forest.map, hmap, hmk, hmr, hdr x hxr, hdk x hxk, update_self]
    · intro y hy
      simp only [Forest.nodes_node, List.mem_cons, List.mem_append, not_or] at hy
      rw [hdr y hy.2.2, hdk y hy.2.1, update_of_ne hy.1]

namespace MooUiXml

/-- The lists of the merges fit to the tree: what is on them is in the tree and is not its root, no
node is there twice, and none is below another of the same list. -/
structure Good (xml : MooUiXml) : Prop where
  root : ∃ r k, xml.ui = .node r k .nil
  nodup : xml.ui.nodes.Nodup
  listed : ∀ m ∈ xml.mergedUi, ∀ x ∈ m.nodes, x ∈ xml.ui.nodes ∧ x ∉ xml.ui.tops
  once : (xml.mergedUi.flatMap (·.nodes)).Nodup
  apart : ∀ m ∈ xml.mergedUi, ∀ x ∈ m.nodes, ∀ y ∈ m.nodes, x ∈ xml.ui.under y → x = y

variable {M : KeyedQueue.Allocator} {xml : MooUiXml} {id parent j : ℕ}

theorem good_init (root : ℕ) : (init root).Good where
  root := ⟨root, .nil, rfl⟩
  nodup := by simp [init]
  listed := by simp [init]
  once := by simp [init]
  apart := by simp [init]

/-! ## Merges -/

theorem mem_changeMerge {change : Merge → Merge} {l : List Merge} {m : Merge}
    (h : m ∈ changeMerge id change l) : m ∈ l ∨ ∃ m' ∈ l, m = change m' := by
  fun_induction changeMerge id change l <;> grind

theorem find_changeMerge {change : Merge → Merge} {l : List Merge}
    (hid : ∀ m, (change m).id = m.id) :
    (changeMerge id change l).find? (·.id = id) = (l.find? (·.id = id)).map change := by
  fun_induction changeMerge id change l <;> grind

/-- The lists of the merges, when a node may have been added to one. -/
theorem perm_changeMerge {x : ℕ} {change : Merge → Merge} (l : List Merge)
    (hc : ∀ m, (change m).nodes = m.nodes ∨ (change m).nodes = x :: m.nodes) :
    ((changeMerge id change l).flatMap (·.nodes)).Perm (l.flatMap (·.nodes)) ∨
      ((changeMerge id change l).flatMap (·.nodes)).Perm (x :: l.flatMap (·.nodes)) := by
  fun_induction changeMerge id change l with
  | case1 => exact .inl .nil
  | case2 m rest hm =>
    obtain h | h := hc m
    · exact .inl (by simp [h])
    · exact .inr (by simp [h])
  | case3 m rest hm ih =>
    simp only [List.flatMap_cons]
    obtain h | h := ih
    · exact .inl (h.append_left _)
    · exact .inr ((h.append_left _).trans List.perm_middle)

theorem mergeAddNode_id (x : ℕ) (m : Merge) : (xml.mergeAddNode x m).id = m.id := by
  unfold mergeAddNode
  split <;> rfl

theorem mergeAddNode_nodes (x : ℕ) (m : Merge) :
    (∃ y ∈ m.nodes, x ∈ xml.ui.under y) ∧ (xml.mergeAddNode x m).nodes = m.nodes ∨
      (∀ y ∈ m.nodes, x ∉ xml.ui.under y) ∧ (xml.mergeAddNode x m).nodes = x :: m.nodes := by
  simp only [mergeAddNode, nodeIsAncestor, List.any_eq_true, decide_eq_true_eq]
  split
  case isTrue h => exact .inl ⟨h, rfl⟩
  case isFalse h => exact .inr ⟨fun y hy hx => h ⟨y, hy, hx⟩, rfl⟩

theorem Good.newMergeId (hg : xml.Good) : xml.newMergeId.Good where
  root := hg.root
  nodup := hg.nodup
  listed m hm := by
    rcases List.mem_cons.1 hm with rfl | hm
    · simp
    · exact hg.listed m hm
  once := by simpa [MooUiXml.newMergeId] using hg.once
  apart m hm := by
    rcases List.mem_cons.1 hm with rfl | hm
    · simp
    · exact hg.apart m hm

/-! ## Putting nodes into the tree -/

/-- The nodes `l` were put below `parent`, at the addresses of `g`, and belong to a merge. -/
structure Inserted (xml xml' : MooUiXml) (id parent j : ℕ) (g : Forest ℕ)
    (l : Forest MooUiNode) : Prop where
  ui : xml'.ui = xml.ui.insertAt parent j g
  fresh : ∀ x ∈ g.nodes, x ∉ xml.ui.nodes
  nodup : g.nodes.Nodup
  data : g.map xml'.data = l
  old : ∀ x ∈ xml.ui.nodes, xml'.data x = xml.data x
  owned : ∃ m m', xml.lookupMerge id = some m ∧ xml'.lookupMerge id = some m' ∧
    m.nodes ⊆ m'.nodes ∧ ∀ x ∈ g.nodes, ∃ y ∈ m'.nodes, x ∈ xml'.ui.under y

/-- A tree with more nodes, when one of them may be added to a list. -/
theorem Good.put (hg : xml.Good) (hp : parent ∈ xml.ui.nodes) {g : Forest ℕ} (hn : g.nodes.Nodup)
    (hf : ∀ x ∈ g.nodes, x ∉ xml.ui.nodes) (data : ℕ → MooUiNode) :
    ({ xml with ui := xml.ui.insertAt parent j g, data := data } : MooUiXml).Good := by
  have hmem := fun z => Forest.mem_insertAt (i := j) (g := g) (z := z) hg.nodup hp
  obtain ⟨r, k, hroot⟩ := hg.root
  refine ⟨?_, Forest.nodup_insertAt hg.nodup hp hn hf, ?_, hg.once, ?_⟩
  · simp only [hroot, Forest.insertAt]
    split <;> exact ⟨_, _, rfl⟩
  · intro m hm x hx
    obtain ⟨hin, htop⟩ := hg.listed m hm x hx
    refine ⟨(hmem x).2 (.inr hin), ?_⟩
    simp only [hroot, Forest.insertAt] at htop ⊢
    split <;> simpa using htop
  · intro m hm x hx y hy hxy
    obtain ⟨hin, -⟩ := hg.listed m hm x hx
    have hyg : y ∉ g.nodes := fun h => hf y h (hg.listed m hm y hy).1
    obtain h | ⟨h, -⟩ := (Forest.mem_under_insertAt hg.nodup hyg).1 hxy
    · exact hg.apart m hm x hx y hy h
    · exact absurd hin (hf x h)

/-- A node that is on no list, with none of the list of a merge below it, is added to the list. -/
theorem Good.merge (hg : xml.Good) {x : ℕ} (hx : x ∈ xml.ui.nodes) (htop : x ∉ xml.ui.tops)
    (hno : ∀ m ∈ xml.mergedUi, ∀ y ∈ m.nodes, y ∉ xml.ui.under x) :
    ({ xml with mergedUi := changeMerge id (xml.mergeAddNode x) xml.mergedUi } : MooUiXml).Good := by
  have hnot : x ∉ xml.mergedUi.flatMap (·.nodes) := fun h => by
    obtain ⟨m, hm, hxm⟩ := List.mem_flatMap.1 h
    exact hno m hm x hxm (Forest.mem_under_self hx)
  refine ⟨hg.root, hg.nodup, ?_, ?_, ?_⟩
  · intro m hm y hy
    obtain hm | ⟨m', hm', rfl⟩ := mem_changeMerge hm
    · exact hg.listed m hm y hy
    obtain ⟨-, h⟩ | ⟨-, h⟩ := mergeAddNode_nodes x m' <;> rw [h] at hy
    · exact hg.listed m' hm' y hy
    rcases List.mem_cons.1 hy with rfl | hy
    · exact ⟨hx, htop⟩
    · exact hg.listed m' hm' y hy
  · have hc : ∀ m, (xml.mergeAddNode x m).nodes = m.nodes ∨
        (xml.mergeAddNode x m).nodes = x :: m.nodes := fun m =>
      (mergeAddNode_nodes x m).imp And.right And.right
    obtain h | h := perm_changeMerge xml.mergedUi hc
    · exact h.nodup_iff.2 hg.once
    · exact h.nodup_iff.2 (hg.once.cons hnot)
  · intro m hm y hy z hz hyz
    obtain hm | ⟨m', hm', rfl⟩ := mem_changeMerge hm
    · exact hg.apart m hm y hy z hz hyz
    obtain ⟨-, h⟩ | ⟨habove, h⟩ := mergeAddNode_nodes x m' <;> rw [h] at hy hz
    · exact hg.apart m' hm' y hy z hz hyz
    rcases List.mem_cons.1 hy with hy | hy <;> rcases List.mem_cons.1 hz with hz | hz
    · rw [hy, hz]
    · exact absurd (hy ▸ hyz) (habove z hz)
    · exact absurd hy fun hy => hno m' hm' y hy (hz ▸ hyz)
    · exact hg.apart m' hm' y hy z hz hyz

theorem Good.addNode (hg : xml.Good) (hp : parent ∈ xml.ui.nodes) {m : Merge}
    (hm : xml.lookupMerge id = some m) (d : MooUiNode) (k : Forest MooUiNode) :
    (xml.addNode M id parent j d k).Good ∧
      ∃ g, xml.Inserted (xml.addNode M id parent j d k) id parent j g
        (.node d k .nil) := by
  obtain ⟨hn, hf, hmap, hold⟩ := placeNodes_spec M (.node d k .nil) xml.ui.nodes xml.data
  have hshape : ∃ x k', (placeNodes M (.node d k .nil) xml.ui.nodes xml.data).1 = .node x k' .nil :=
    ⟨_, _, rfl⟩
  obtain ⟨x, k', hx⟩ := hshape
  have hput := hg.put (j := j) hp hn hf (placeNodes M (.node d k .nil) xml.ui.nodes xml.data).2
  simp only [MooUiXml.addNode, hx, Forest.head_node]
  rw [hx] at hput hn hf hold hmap
  set data := (placeNodes M (.node d k .nil) xml.ui.nodes xml.data).2
  set g : Forest ℕ := .node x k' .nil with hgdef
  set xml₁ : MooUiXml := { xml with ui := xml.ui.insertAt parent j g, data := data } with hxml₁
  have hxg : x ∈ g.nodes := by simp [hgdef]
  have hnew : xml₁.ui.under x = g.nodes := by
    rw [hxml₁, Forest.under_insertAt_new hg.nodup hp (hf x hxg), hgdef]
    simp [Forest.under]
  have hin : ∀ z ∈ g.nodes, z ∈ xml₁.ui.nodes := fun z hz =>
    (Forest.mem_insertAt hg.nodup hp).2 (.inl hz)
  have hlook : xml₁.lookupMerge id = some m := hm
  have hmerged := @find_changeMerge id (xml₁.mergeAddNode x) xml₁.mergedUi (mergeAddNode_id x)
  refine ⟨hput.merge (hin x hxg) ?_ ?_, g, rfl, hf, hn, hmap,
    fun y hy => hold y fun h => hf y h hy, m, xml₁.mergeAddNode x m, hm, ?_, ?_, ?_⟩
  · obtain ⟨r, k₀, hroot⟩ := hg.root
    have htop : xml₁.ui.tops = [r] := by
      simp only [hxml₁, hroot, Forest.insertAt]
      split <;> rfl
    have hxr : x ≠ r := fun h => hf x hxg (by simp [hroot, h])
    simpa [htop] using hxr
  · intro m hm y hy hyx
    rw [hnew] at hyx
    exact hf y hyx (hg.listed m hm y hy).1
  · rw [MooUiXml.lookupMerge, hmerged]
    exact congrArg (Option.map (xml₁.mergeAddNode x)) hlook
  · obtain ⟨-, h⟩ | ⟨-, h⟩ := @mergeAddNode_nodes xml₁ x m <;> simp [h]
  · intro z hz
    have hzx : z ∈ xml₁.ui.under x := hnew ▸ hz
    obtain ⟨⟨y, hy, hxy⟩, h⟩ | ⟨-, h⟩ := mergeAddNode_nodes x m
    · exact ⟨y, h ▸ hy, Forest.under_trans hput.nodup hxy hzx⟩
    · exact ⟨x, by simp [h], hzx⟩

theorem mem_of_getChildOf {node y : ℕ} {pieces : List (List UInt8)} (hn : node ∈ xml.ui.nodes)
    (h : xml.getChildOf node pieces = some y) : y ∈ xml.ui.nodes := by
  induction pieces generalizing node with
  | nil =>
    obtain rfl : node = y := by simpa [getChildOf] using h
    exact hn
  | cons piece pieces ih =>
    rw [getChildOf] at h
    split at h
    · simp at h
    case h_2 child hc =>
      exact ih (Forest.kidsOf_subset (Forest.tops_subset (List.mem_of_find?_eq_some hc))) h

theorem mem_of_findNode {path : List UInt8} (h : xml.findNode path = some parent) :
    parent ∈ xml.ui.nodes := by
  rw [findNode, Option.or_eq_some_iff] at h
  obtain h | ⟨-, h⟩ := h
  · rw [getNode] at h
    split at h
    · simp at h
    case h_2 root hroot => exact mem_of_getChildOf (Forest.mem_nodes_of_head hroot) h
  · exact List.mem_of_find?_eq_some h

theorem Good.addItem (hg : xml.Good) (path : List UInt8) (name action : Option (List UInt8))
    (pos : ℤ) : (xml.addItem M id path name action pos).Good := by
  unfold MooUiXml.addItem
  extract_lets name'
  split
  case h_1 m parent hm hp =>
    have hadd := fun i d => (hg.addNode (M := M) (j := i) (mem_of_findNode hp) hm d .nil).1
    split <;> first | exact hadd _ _ | exact hg
  case h_2 => exact hg

/-- What is put at the place later comes before what is there. -/
theorem Inserted.trans {xml₁ xml₂ : MooUiXml} {g₁ g₂ : Forest ℕ} {l₁ l₂ : Forest MooUiNode}
    (hg : xml.Good) (hg₁ : xml₁.Good) (hp : parent ∈ xml.ui.nodes)
    (hpos : j ≤ (xml.ui.kidsOf parent).tops.length)
    (h₁ : xml.Inserted xml₁ id parent j g₁ l₁)
    (h₂ : xml₁.Inserted xml₂ id parent j g₂ l₂) :
    xml.Inserted xml₂ id parent j (g₂.append g₁) (l₂.append l₁) := by
  have hmem : ∀ z, z ∈ xml₁.ui.nodes ↔ z ∈ g₁.nodes ∨ z ∈ xml.ui.nodes := fun z => by
    rw [h₁.ui, Forest.mem_insertAt hg.nodup hp]
  refine ⟨?_, ?_, ?_, ?_, ?_, ?_⟩
  · rw [h₂.ui, h₁.ui, Forest.insertAt_insertAt hg.nodup (fun h => h₁.fresh _ h hp) hpos]
  · intro x hx hin
    rw [Forest.nodes_append, List.mem_append] at hx
    obtain hx | hx := hx
    · exact h₂.fresh x hx ((hmem x).2 (.inr hin))
    · exact h₁.fresh x hx hin
  · rw [Forest.nodes_append, List.nodup_append]
    refine ⟨h₂.nodup, h₁.nodup, fun x hx y hy hxy => ?_⟩
    exact h₂.fresh x hx ((hmem x).2 (.inl (hxy ▸ hy)))
  · rw [Forest.map_append, h₂.data,
      Forest.map_congr fun x hx => h₂.old x ((hmem x).2 (.inl hx)), h₁.data]
  · intro x hx
    rw [h₂.old x ((hmem x).2 (.inr hx)), h₁.old x hx]
  · obtain ⟨m, m₁, hm, hm₁, hsub₁, hown₁⟩ := h₁.owned
    obtain ⟨m₁', m₂, hm₁', hm₂, hsub₂, hown₂⟩ := h₂.owned
    obtain rfl : m₁ = m₁' := by simpa [hm₁] using hm₁'
    refine ⟨m, m₂, hm, hm₂, fun _ h => hsub₂ (hsub₁ h), fun x hx => ?_⟩
    rw [Forest.nodes_append, List.mem_append] at hx
    obtain hx | hx := hx
    · exact hown₂ x hx
    · obtain ⟨y, hy, hxy⟩ := hown₁ x hx
      have hin := (hg₁.listed m₁ (List.mem_of_find?_eq_some hm₁) y hy).1
      refine ⟨y, hsub₂ hy, ?_⟩
      rw [h₂.ui]
      exact (Forest.mem_under_insertAt hg₁.nodup fun h => h₂.fresh y h hin).2 (.inl hxy)

theorem Good.insertElements (hg : xml.Good) (hp : parent ∈ xml.ui.nodes) {m : Merge}
    (hm : xml.lookupMerge id = some m) (hpos : j ≤ (xml.ui.kidsOf parent).tops.length)
    (es : List Markup.Element) :
    (xml.insertElements M id parent j es).Good ∧
      ∃ g, xml.Inserted (xml.insertElements M id parent j es) id parent j g
        (.ofTops (es.reverse.filterMap (acceptElement (xml.data parent).type))) := by
  induction es generalizing xml m with
  | nil =>
    refine ⟨hg, .nil, ?_, by simp, by simp, rfl, fun _ _ => rfl, m, m, hm, hm, by simp, by simp⟩
    simp [MooUiXml.insertElements]
  | cons e before ih =>
    rw [MooUiXml.insertElements]
    split
    case h_1 hnone =>
      simpa [hnone] using ih hg hp hm hpos
    case h_2 d k hsome =>
      obtain ⟨hg₁, g₁, h₁⟩ := hg.addNode (M := M) hp hm d k
      obtain ⟨m₀, m₁, -, hm₁, -⟩ := h₁.owned
      have hp₁ : parent ∈ (xml.addNode M id parent j d k).ui.nodes := by
        rw [h₁.ui, Forest.mem_insertAt hg.nodup hp]
        exact .inr hp
      obtain ⟨hg₂, g₂, h₂⟩ := ih hg₁ hp₁ hm₁ (by
        rw [h₁.ui, Forest.kidsOf_insertAt hg.nodup hp, Forest.tops_insertTops hpos]
        simp only [List.length_append, List.length_take, List.length_drop]
        omega)
      rw [h₁.old parent hp] at h₂
      refine ⟨hg₂, g₂.append g₁, ?_⟩
      simpa [hsome, Forest.ofTops_append, Forest.ofTops] using h₁.trans hg hg₁ hp hpos h₂

theorem Good.insert (hg : xml.Good) (node : Option ℕ) (pos : ℤ) (markup : Option Markup) :
    (xml.insert M id node pos markup).Good := by
  unfold MooUiXml.insert
  split
  case h_1 parent m doc hp hm =>
    split
    · exact hg
    case isFalse h =>
      refine (hg.insertElements (by tauto) hm ?_ _).1
      unfold slistPosition
      split <;> omega
  case h_2 => exact hg

theorem Good.addMarkup (hg : xml.Good) (e : Markup.Element) : (xml.addMarkup M e).Good := by
  unfold MooUiXml.addMarkup
  split
  · exact hg
  case h_2 d k he =>
    obtain ⟨hn, hf, -⟩ := placeNodes_spec M (.node d k .nil) xml.ui.nodes xml.data
    split
    · dsimp only
      split
      · exact hg
      case h_2 root hroot => exact hg.put (Forest.mem_nodes_of_head hroot) hn hf _
    · exact hg

theorem Good.addUiFromString (hg : xml.Good) (markup : Option Markup) :
    (xml.addUiFromString M markup).Good := by
  unfold MooUiXml.addUiFromString
  split
  · exact hg
  case h_2 doc =>
    dsimp only
    generalize Markup.elements _ = es
    induction es generalizing xml with
    | nil => exact hg
    | cons e es ih => exact ih (hg.addMarkup e)

/-! ## Taking nodes from the tree -/

theorem purge_id (node : ℕ) (m : Merge) : (xml.purge node m).id = m.id := by
  rw [purge]
  generalize m.nodes = l
  induction l generalizing m with
  | nil => rfl
  | cons x l ih =>
    rw [List.foldl_cons, ih]
    split <;> rfl

/-- The loop over the copy leaves what is not below the removed node. -/
theorem purge_nodes (node : ℕ) (m : Merge) (hm : m.nodes.Nodup) :
    (xml.purge node m).nodes = m.nodes.filter (· ∉ xml.ui.under node) := by
  have hloop : ∀ (l : List ℕ) (m : Merge), m.nodes.Nodup →
      (l.foldl (fun m n => if xml.nodeIsAncestor n node then { m with nodes := m.nodes.erase n }
        else m) m).nodes = m.nodes.filter fun x => ¬ (x ∈ l ∧ x ∈ xml.ui.under node) := by
    intro l
    induction l with
    | nil => simp
    | cons x l ih =>
      intro m hm
      rw [List.foldl_cons]
      split
      case isTrue h =>
        rw [ih _ (hm.erase x)]
        simp only [hm.erase_eq_filter, List.filter_filter]
        refine List.filter_congr fun y _ => ?_
        simp only [nodeIsAncestor, decide_eq_true_eq] at h
        grind
      case isFalse h =>
        rw [ih _ hm]
        refine List.filter_congr fun y _ => ?_
        simp only [nodeIsAncestor, decide_eq_true_eq] at h
        grind
  rw [purge, hloop m.nodes m hm]
  refine List.filter_congr fun x hx => ?_
  simp [hx]

/-- A merge with those of its nodes that are in a tree. -/
def inTree (ui : Forest ℕ) (m : Merge) : Merge := { m with nodes := m.nodes.filter (· ∈ ui.nodes) }

theorem inTree_inTree {ui ui' : Forest ℕ} (hsub : ui'.nodes ⊆ ui.nodes) (m : Merge) :
    inTree ui' (inTree ui m) = inTree ui' m := by
  simp only [inTree, List.filter_filter]
  congr 1
  refine List.filter_congr fun x _ => ?_
  have hx := @hsub x
  grind

/-- With fewer merges the lists fit still. -/
theorem Good.sublist (hg : xml.Good) {l : List Merge} (hl : l.Sublist xml.mergedUi) :
    ({ xml with mergedUi := l } : MooUiXml).Good where
  root := hg.root
  nodup := hg.nodup
  listed m hm := hg.listed m (hl.subset hm)
  once := by
    obtain ⟨hnodup, hdisj⟩ := List.nodup_flatMap.1 hg.once
    exact List.nodup_flatMap.2 ⟨fun m hm => hnodup m (hl.subset hm), hdisj.sublist hl⟩
  apart m hm := hg.apart m (hl.subset hm)

theorem Good.nodup_of_mem (hg : xml.Good) {m : Merge} (hm : m ∈ xml.mergedUi) : m.nodes.Nodup :=
  (List.nodup_flatMap.1 hg.once).1 m hm

/-- A smaller tree, with what is left of the lists. -/
theorem Good.without (hg : xml.Good) {p : ℕ → Bool} (hp : ∀ r ∈ xml.ui.tops, p r = false) :
    ({ xml with ui := xml.ui.without p,
                mergedUi := xml.mergedUi.map (inTree (xml.ui.without p)) } : MooUiXml).Good := by
  obtain ⟨r, k, hroot⟩ := hg.root
  refine ⟨?_, Forest.without_sublist.nodup hg.nodup, ?_, ?_, ?_⟩
  · have hr : p r = false := hp r (by simp [hroot])
    exact ⟨r, k.without p, by simp [hroot, Forest.without, hr]⟩
  · intro m hm x hx
    obtain ⟨m', hm', rfl⟩ := List.mem_map.1 hm
    simp only [inTree, List.mem_filter, decide_eq_true_eq] at hx
    exact ⟨hx.2, fun h => (hg.listed m' hm' x hx.1).2 (Forest.tops_without_subset h)⟩
  · refine List.Sublist.nodup ?_ hg.once
    rw [List.flatMap_map]
    generalize xml.mergedUi = l
    induction l with
    | nil => simp
    | cons m l ih => exact List.filter_sublist.append ih
  · intro m hm x hx y hy hxy
    obtain ⟨m', hm', rfl⟩ := List.mem_map.1 hm
    exact hg.apart m' hm' x (List.mem_filter.1 hx).1 y (List.mem_filter.1 hy).1
      (Forest.under_without hg.nodup hxy)

theorem Good.removeNode_eq (hg : xml.Good) {node : ℕ} (hin : node ∈ xml.ui.nodes)
    (htop : node ∉ xml.ui.tops) :
    xml.removeNode node = some { xml with
      ui := xml.ui.without (· = node)
      mergedUi := xml.mergedUi.map (inTree (xml.ui.without (· = node))) } := by
  rw [removeNode, if_neg (not_not_intro hin), if_neg htop]
  have hmap : xml.mergedUi.map (xml.purge node) =
      xml.mergedUi.map (inTree (xml.ui.without (· = node))) := by
    refine List.map_congr_left fun m hm => ?_
    have hnodes : (xml.purge node m).nodes = (inTree (xml.ui.without (· = node)) m).nodes := by
      rw [purge_nodes node m (hg.nodup_of_mem hm)]
      refine List.filter_congr fun x hx => ?_
      simp only [Forest.mem_without hg.nodup, (hg.listed m hm x hx).1, true_and, decide_eq_true_eq,
        forall_eq]
    calc xml.purge node m = ⟨(xml.purge node m).id, (xml.purge node m).nodes⟩ := rfl
      _ = _ := by rw [hnodes, purge_id]; rfl
  rw [hmap]

/-- Nodes of which none is below another are removed one after the other. -/
theorem Good.removeNodes (hg : xml.Good) {l : List ℕ} (hl : l.Nodup)
    (hin : ∀ x ∈ l, x ∈ xml.ui.nodes ∧ x ∉ xml.ui.tops)
    (hapart : ∀ x ∈ l, ∀ y ∈ l, x ∈ xml.ui.under y → x = y) :
    l.foldlM MooUiXml.removeNode xml = some { xml with
      ui := xml.ui.without (· ∈ l)
      mergedUi := xml.mergedUi.map (inTree (xml.ui.without (· ∈ l))) } := by
  induction l generalizing xml with
  | nil =>
    have hmap : xml.mergedUi.map (inTree xml.ui) = xml.mergedUi := by
      rw [List.map_congr_left (g := id) fun m hm => ?_, List.map_id]
      have hall := List.filter_eq_self.2 fun x hx => decide_eq_true (hg.listed m hm x hx).1
      simp [inTree, hall]
    simp [Forest.without_of_forall, hmap]
  | cons x l ih =>
    obtain ⟨hx, htop⟩ := hin x (by simp)
    obtain ⟨hxl, hl⟩ := List.nodup_cons.1 hl
    rw [List.foldlM_cons, hg.removeNode_eq hx htop]
    set ui₁ := xml.ui.without (· = x) with hui₁
    have hg₁ := hg.without (p := (· = x)) fun r hr => decide_eq_false fun h => htop (h ▸ hr)
    have hmem : ∀ z, z ∈ ui₁.nodes ↔ z ∈ xml.ui.nodes ∧ z ∉ xml.ui.under x := fun z => by
      simp [hui₁, Forest.mem_without hg.nodup]
    have hboth : ui₁.without (· ∈ l) = xml.ui.without (· ∈ x :: l) := by
      rw [hui₁, Forest.without_without]
      exact Forest.without_congr fun y _ => by simp
    refine (ih hg₁ hl (fun y hy => ?_) fun y hy z hz hyz => ?_).trans ?_
    · obtain ⟨hin', htop'⟩ := hin y (by simp [hy])
      refine ⟨(hmem y).2 ⟨hin', fun h => ?_⟩, fun h => htop' (Forest.tops_without_subset h)⟩
      exact hxl (hapart y (by simp [hy]) x (by simp) h ▸ hy)
    · exact hapart y (by simp [hy]) z (by simp [hz]) (Forest.under_without hg.nodup hyz)
    · have hmap : ∀ m, inTree (xml.ui.without (· ∈ x :: l)) (inTree ui₁ m) =
          inTree (xml.ui.without (· ∈ x :: l)) m := fun m =>
        inTree_inTree (hboth ▸ Forest.without_subset) m
      simp only [List.map_map, Function.comp_def, ← hui₁, hboth, hmap]

theorem Good.removeNode (hg : xml.Good) {node : ℕ} {xml' : MooUiXml}
    (h : xml.removeNode node = some xml') : xml'.Good := by
  by_cases hin : node ∈ xml.ui.nodes
  · by_cases htop : node ∈ xml.ui.tops
    · simp [MooUiXml.removeNode, hin, htop] at h
    · rw [hg.removeNode_eq hin htop] at h
      obtain rfl := Option.some.inj h
      exact hg.without fun r hr => decide_eq_false fun h => htop (h ▸ hr)
  · obtain rfl : xml = xml' := by simpa [MooUiXml.removeNode, hin] using h
    exact hg

/-- What is left when a merge is removed. -/
def withoutMerge (xml : MooUiXml) (m : Merge) : MooUiXml :=
  { xml with
    ui := xml.ui.without (· ∈ m.nodes)
    mergedUi := (xml.mergedUi.eraseP (·.id = m.id)).map (inTree (xml.ui.without (· ∈ m.nodes))) }

theorem Good.removeUi_eq (hg : xml.Good) {m : Merge} (hm : xml.lookupMerge id = some m) :
    xml.removeUi id = some (xml.withoutMerge m) := by
  have hmem := List.mem_of_find?_eq_some hm
  have hid : m.id = id := by simpa using List.find?_some hm
  have hnone : m.nodes.filter (· ∈ (xml.ui.without (· ∈ m.nodes)).nodes) = [] := by
    refine List.filter_eq_nil_iff.2 fun x hx => ?_
    have hself := Forest.mem_under_self (hg.listed m hmem x hx).1
    simp only [Forest.mem_without hg.nodup, decide_eq_true_eq]
    exact fun h => h.2 x hx hself
  rw [removeUi, hm]
  simp only [hg.removeNodes (hg.nodup_of_mem hmem) (hg.listed m hmem) (hg.apart m hmem),
    Option.map_some, lookupMerge, List.find?_map, Function.comp_def]
  have hfind : List.find? (fun m' => decide ((inTree (xml.ui.without (· ∈ m.nodes)) m').id = id))
      xml.mergedUi = some m := hm
  rw [hfind]
  simp [inTree, hnone, withoutMerge, hid, List.eraseP_map, Function.comp_def]
  rfl

theorem Good.removeUi (hg : xml.Good) {xml' : MooUiXml} (h : xml.removeUi id = some xml') :
    xml'.Good := by
  cases hm : xml.lookupMerge id with
  | none =>
    obtain rfl : xml = xml' := by simpa [MooUiXml.removeUi, hm] using h
    exact hg
  | some m =>
    rw [hg.removeUi_eq hm] at h
    obtain rfl := Option.some.inj h
    refine (hg.without fun r hr => decide_eq_false fun h => ?_).sublist (List.eraseP_sublist.map _)
    exact (hg.listed m (List.mem_of_find?_eq_some hm) r h).2 hr

/-! ## Runs -/

theorem Good.step (hg : xml.Good) {c : Call} {xml' : MooUiXml} (h : xml.step M c = some xml') :
    xml'.Good := by
  cases c with
  | addUiFromString markup => exact Option.some.inj h ▸ hg.addUiFromString markup
  | newMergeId => exact Option.some.inj h ▸ hg.newMergeId
  | addItem id path name action pos => exact Option.some.inj h ▸ hg.addItem path name action pos
  | insert id node pos markup => exact Option.some.inj h ▸ hg.insert node pos markup
  | removeNode node => exact hg.removeNode h
  | removeUi id => exact hg.removeUi h

/-- The descriptions that runs come to, from an empty one. -/
def Reached (M : KeyedQueue.Allocator) (root : ℕ) (xml : MooUiXml) : Prop :=
  Machine.Reachable (fun xml c => (xml.step M c).getD xml) (fun xml c => (xml.step M c).isSome)
    (init root) xml

theorem Reached.init {root : ℕ} : Reached M root (init root) := .start

theorem Reached.step {root : ℕ} (h : Reached M root xml) {c : Call} {xml' : MooUiXml}
    (hc : xml.step M c = some xml') : Reached M root xml' := by
  have hstep := Machine.Reachable.step (e := c) h (by simp [hc])
  rwa [hc] at hstep

theorem Reached.good {root : ℕ} (h : Reached M root xml) : xml.Good :=
  h.invariant (good_init root) fun xml c hc hg => by
    obtain ⟨xml', hxml'⟩ := Option.isSome_iff_exists.1 hc
    rw [hxml']
    exact hg.step hxml'

/-- In every run what is on the lists is in the tree, no node is on two lists, and none is below
another of its list. Elements are put next to each other in the order of the markup, and with a merge
all that is below its nodes goes, and nothing else. -/
theorem merges_right {root : ℕ} (h : Reached M root xml) :
    (∀ m ∈ xml.mergedUi, ∀ x ∈ m.nodes, x ∈ xml.ui.nodes) ∧
    (xml.mergedUi.flatMap (·.nodes)).Nodup ∧
    (∀ m ∈ xml.mergedUi, ∀ x ∈ m.nodes, ∀ y ∈ m.nodes, x ∈ xml.ui.under y → x = y) ∧
    (∀ (id : ℕ) (m : Merge) (node : Option ℕ) (parent : ℕ) (pos : ℤ) (doc : Markup),
      xml.lookupMerge id = some m → node.or xml.ui.head = some parent → parent ∈ xml.ui.nodes →
      (xml.data parent).type ≠ .separator →
      ∃ g, let xml' := xml.insert M id node pos (some doc)
        let children := (xml.ui.kidsOf parent).tops
        let i := slistPosition pos children.length
        xml.Inserted xml' id parent i g
          (.ofTops (doc.elements.filterMap (acceptElement (xml.data parent).type))) ∧
        (xml'.ui.kidsOf parent).tops = children.take i ++ g.tops ++ children.drop i) ∧
    (∀ (id : ℕ) (m : Merge), xml.lookupMerge id = some m →
      ∃ xml', xml.removeUi id = some xml' ∧
        xml'.ui = xml.ui.without (· ∈ m.nodes) ∧ xml'.ui.nodes.Sublist xml.ui.nodes ∧
        (∀ z, z ∈ xml'.ui.nodes ↔ z ∈ xml.ui.nodes ∧ ∀ x ∈ m.nodes, z ∉ xml.ui.under x) ∧
        xml'.data = xml.data ∧
        xml'.mergedUi = (xml.mergedUi.eraseP (·.id = id)).map (inTree xml'.ui)) := by
  have hg := h.good
  refine ⟨fun m hm x hx => (hg.listed m hm x hx).1, hg.once, hg.apart, ?_, ?_⟩
  · intro id m node parent pos doc hm hnode hp htype
    have hi : slistPosition pos (xml.ui.kidsOf parent).tops.length ≤
        (xml.ui.kidsOf parent).tops.length := by
      unfold slistPosition
      split <;> omega
    obtain ⟨-, g, hg'⟩ := hg.insertElements (M := M) hp hm hi doc.elements.reverse
    rw [List.reverse_reverse] at hg'
    have hinsert : xml.insert M id node pos (some doc) = xml.insertElements M id parent
        (slistPosition pos (xml.ui.kidsOf parent).tops.length) doc.elements.reverse := by
      simp [MooUiXml.insert, hnode, hm, hp, htype]
    refine ⟨g, ?_, ?_⟩
    · rw [hinsert]
      exact hg'
    · rw [hinsert, hg'.ui, Forest.kidsOf_insertAt hg.nodup hp, Forest.tops_insertTops hi]
  · intro id m hm
    have hid : m.id = id := by simpa using List.find?_some hm
    refine ⟨_, hg.removeUi_eq hm, rfl, Forest.without_sublist, fun z => ?_, rfl, ?_⟩
    · simp only [withoutMerge, Forest.mem_without hg.nodup, decide_eq_true_eq]
    · rw [withoutMerge, hid]

/-- Two merges put a widget each, and a node of the second one is put below one of the first. -/
theorem merges_right_two :
    let widget (name : UInt8) : Option Markup :=
      some (.element "widget" [("name", [name])] .nil .nil)
    let xml := ((((init 0).newMergeId.newMergeId).insert .above 1 none 0 (widget 97)).insert
      .above 2 none 0 (widget 98)).addItem .above 2 [97] none (some [99]) 0
    (xml.mergedUi.flatMap (·.nodes)).Nodup := by
  intro widget xml
  have hrun : Reached .above 0 xml := by
    refine Reached.step (c := .addItem 2 [97] none (some [99]) 0) ?_ rfl
    refine Reached.step (c := .insert 2 none 0 (widget 98)) ?_ rfl
    refine Reached.step (c := .insert 1 none 0 (widget 97)) ?_ rfl
    exact (Reached.init.step (c := .newMergeId) rfl).step (c := .newMergeId) rfl
  exact (merges_right hrun).2.1

end MooUiXml

end Medit
