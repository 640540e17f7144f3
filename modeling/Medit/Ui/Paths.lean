import Mathlib.Data.List.Find
import Medit.Ui.Merges

/-!
# Paths in a UI description

A path leads to the first child of each name. Nodes that come behind the others leave the paths that
lead somewhere as they are, and what a merge has put into the tree goes with it.

## Main definitions

* `MooUiXml.insertMarkup` — markup is inserted at a path.
* `MooUiXml.Extends` — nodes have come behind the others.
* `MooUiXml.Undoable` — the last merge has what has come into the tree.

## Main results

* `MooUiXml.Extends.getChildOf` — paths lead to the same nodes.
* `MooUiXml.Good.removeUi_undo` — the last merge is taken back.
-/

namespace Medit

open LinkedForest Function

namespace MooUiXml

/-- `moo_ui_xml_insert_markup` -/
def insertMarkup (mem : KeyedQueue.Allocator) (xml : MooUiXml) (id : ℕ)
    (parentPath : Option (List UInt8)) (position : ℤ) (markup : Option Markup) : MooUiXml :=
  match parentPath with
  | none => xml.insert mem id none position markup
  | some path =>
    match xml.findNode path with
    | none => xml
    | some parent => xml.insert mem id (some parent) position markup

variable {M : KeyedQueue.Allocator} {xml xml₁ xml₂ : MooUiXml} {id parent v z : ℕ}
  {path path' : List (List UInt8)}

/-! ## Paths -/

theorem getChildOf_append (v : ℕ) (path path' : List (List UInt8)) :
    xml.getChildOf v (path ++ path') =
      (xml.getChildOf v path).bind fun w => xml.getChildOf w path' := by
  induction path generalizing v with
  | nil => rfl
  | cons piece path ih =>
    rw [List.cons_append, getChildOf, getChildOf]
    split
    · rfl
    · exact ih _

theorem isSome_getChildOf_of_prefix (h : path' <+: path) (hz : (xml.getChildOf v path).isSome) :
    (xml.getChildOf v path').isSome := by
  obtain ⟨rest, rfl⟩ := h
  rw [getChildOf_append] at hz
  cases hw : xml.getChildOf v path' with
  | none => simp [hw] at hz
  | some w => rfl

/-- The pieces of a path. -/
def pieces (path : List UInt8) : List (List UInt8) :=
  (path.splitOn '/'.toUInt8).filter (· ≠ [])

theorem pieces_append (path path' : List UInt8) :
    pieces (path ++ '/'.toUInt8 :: path') = pieces path ++ pieces path' := by
  rw [pieces, List.splitOn_append_cons_self, List.filter_append, pieces, pieces]

theorem getNode_eq (path : List UInt8) :
    xml.getNode path = xml.ui.head.bind fun root => xml.getChildOf root (pieces path) := by
  rw [getNode]
  cases xml.ui.head <;> rfl

/-- A path that goes on. -/
theorem getNode_append (path path' : List UInt8) :
    xml.getNode (path ++ '/'.toUInt8 :: path') =
      (xml.getNode path).bind fun w => xml.getChildOf w (pieces path') := by
  rw [getNode_eq, getNode_eq, pieces_append]
  cases xml.ui.head with
  | none => rfl
  | some root => exact getChildOf_append ..

theorem mem_of_getNode {path : List UInt8} (h : xml.getNode path = some z) : z ∈ xml.ui.nodes := by
  have hfind : xml.findNode path = some z := by rw [findNode, h, Option.some_or]
  exact mem_of_findNode hfind

/-- Paths from a node are as they were if all is below it. -/
theorem getChildOf_congr (hnd : xml.ui.nodes.Nodup) (hv : v ∈ xml.ui.nodes)
    (htops : ∀ y ∈ xml.ui.under v, (xml₁.ui.kidsOf y).tops = (xml.ui.kidsOf y).tops)
    (hdata : ∀ y ∈ xml.ui.under v, xml₁.data y = xml.data y) (path : List (List UInt8)) :
    xml₁.getChildOf v path = xml.getChildOf v path := by
  induction path generalizing v with
  | nil => rfl
  | cons piece path ih =>
    have hself := Forest.mem_under_self hv
    have hkids (c : ℕ) (hc : c ∈ (xml.ui.kidsOf v).tops) : c ∈ xml.ui.under v := by
      rw [Forest.under_eq hnd hv]
      exact List.mem_cons_of_mem _ (Forest.tops_subset hc)
    have hfind : ((xml₁.ui.kidsOf v).tops.find? fun c => (xml₁.data c).name = piece) =
        (xml.ui.kidsOf v).tops.find? fun c => (xml.data c).name = piece := by
      rw [htops v hself]
      refine List.find?_congr fun c hc => ?_
      rw [hdata c (hkids c hc)]
    rw [getChildOf, getChildOf, hfind]
    cases hc : (xml.ui.kidsOf v).tops.find? fun c => (xml.data c).name = piece with
    | none => rfl
    | some c =>
      have hcv := hkids c (List.mem_of_find?_eq_some hc)
      have hsub (y : ℕ) (hy : y ∈ xml.ui.under c) : y ∈ xml.ui.under v :=
        Forest.under_trans hnd hcv hy
      exact ih (Forest.under_subset hcv) (fun y hy => htops y (hsub y hy))
        fun y hy => hdata y (hsub y hy)

theorem getChildOf_newMergeId (v : ℕ) (path : List (List UInt8)) :
    xml.newMergeId.getChildOf v path = xml.getChildOf v path := by
  induction path generalizing v with
  | nil => rfl
  | cons piece path ih =>
    rw [getChildOf, getChildOf]
    simp only [ih]
    rfl

theorem getNode_newMergeId (path : List UInt8) :
    xml.newMergeId.getNode path = xml.getNode path := by
  rw [getNode_eq, getNode_eq]
  simp only [getChildOf_newMergeId]
  rfl

/-! ## Nodes behind the others -/

/-- Nodes have come behind the others. -/
structure Extends (xml xml₁ : MooUiXml) : Prop where
  head : xml₁.ui.head = xml.ui.head
  nodes : xml.ui.nodes ⊆ xml₁.ui.nodes
  tops : ∀ y ∈ xml.ui.nodes, (xml.ui.kidsOf y).tops <+: (xml₁.ui.kidsOf y).tops
  data : ∀ y ∈ xml.ui.nodes, xml₁.data y = xml.data y

theorem Extends.refl (xml : MooUiXml) : xml.Extends xml :=
  ⟨rfl, fun _ => id, fun _ _ => List.prefix_refl _, fun _ _ => rfl⟩

theorem Extends.trans (h : xml.Extends xml₁) (h₁ : xml₁.Extends xml₂) : xml.Extends xml₂ where
  head := h₁.head.trans h.head
  nodes _ hy := h₁.nodes (h.nodes hy)
  tops y hy := (h.tops y hy).trans (h₁.tops y (h.nodes hy))
  data y hy := (h₁.data y (h.nodes hy)).trans (h.data y hy)

/-- A path that leads somewhere leads there still. -/
theorem Extends.getChildOf (h : xml.Extends xml₁) (hv : v ∈ xml.ui.nodes)
    (hz : xml.getChildOf v path = some z) : xml₁.getChildOf v path = some z := by
  induction path generalizing v with
  | nil => exact hz
  | cons piece path ih =>
    rw [MooUiXml.getChildOf] at hz ⊢
    cases hc : (xml.ui.kidsOf v).tops.find? fun c => (xml.data c).name = piece with
    | none => simp [hc] at hz
    | some c =>
      have hkid := List.mem_of_find?_eq_some hc
      have hmem : c ∈ xml.ui.nodes := Forest.kidsOf_subset (Forest.tops_subset hkid)
      obtain ⟨new, hnew⟩ := h.tops v hv
      have hfind : ((xml₁.ui.kidsOf v).tops.find? fun c => (xml₁.data c).name = piece) =
          some c := by
        have hsame : ((xml.ui.kidsOf v).tops.find? fun c => (xml₁.data c).name = piece) =
            (xml.ui.kidsOf v).tops.find? fun c => (xml.data c).name = piece :=
          List.find?_congr fun y hy => by
            rw [h.data y (Forest.kidsOf_subset (Forest.tops_subset hy))]
        rw [← hnew, List.find?_append, hsame, hc]
        rfl
      rw [hc] at hz
      rw [hfind]
      exact ih hmem hz

theorem Extends.getNode (h : xml.Extends xml₁) {path : List UInt8}
    (hz : xml.getNode path = some z) : xml₁.getNode path = some z := by
  rw [getNode_eq] at hz ⊢
  rw [h.head]
  cases hroot : xml.ui.head with
  | none => simp [hroot] at hz
  | some root =>
    rw [hroot] at hz
    exact h.getChildOf (Forest.mem_nodes_of_head hroot) hz

section Inserted

variable {g : Forest ℕ} {l : Forest MooUiNode}

theorem Inserted.extends (hg : xml.Good) (hp : parent ∈ xml.ui.nodes)
    (h : xml.Inserted xml₁ id parent (xml.ui.kidsOf parent).tops.length g l) :
    xml.Extends xml₁ where
  head := by
    rw [h.ui]
    obtain ⟨r, k, hroot⟩ := hg.root
    rw [hroot, Forest.insertAt]
    split <;> rfl
  nodes := by
    rw [h.ui]
    exact Forest.sublist_insertAt.subset
  tops y hy := by
    rw [h.ui]
    by_cases hyp : y = parent
    · subst hyp
      rw [Forest.kidsOf_insertAt hg.nodup hp, Forest.tops_insertTops le_rfl, List.take_length,
        List.drop_length, List.append_nil]
      exact List.prefix_append ..
    · rw [Forest.tops_kidsOf_insertAt hyp fun hyg => h.fresh y hyg hy]
  data := h.old

theorem Inserted.getChildOf_new (hg : xml.Good) (hp : parent ∈ xml.ui.nodes) {j : ℕ}
    (h : xml.Inserted xml₁ id parent j g l) (hv : v ∈ g.nodes)
    (hz : xml₁.getChildOf v path = some z) : z ∈ g.nodes := by
  induction path generalizing v with
  | nil =>
    obtain rfl : v = z := by simpa [getChildOf] using hz
    exact hv
  | cons piece path ih =>
    rw [getChildOf] at hz
    split at hz
    · simp at hz
    case h_2 c hc =>
      have hkid := List.mem_of_find?_eq_some hc
      rw [h.ui, Forest.kidsOf_insertAt_new hg.nodup hp (h.fresh v hv)] at hkid
      exact ih (Forest.kidsOf_subset (Forest.tops_subset hkid)) hz

/-- A path leads where it led, or to a new node. -/
theorem Inserted.getChildOf_old (hg : xml.Good) (hp : parent ∈ xml.ui.nodes)
    (h : xml.Inserted xml₁ id parent (xml.ui.kidsOf parent).tops.length g l)
    (hv : v ∈ xml.ui.nodes) (hz : xml₁.getChildOf v path = some z) :
    xml.getChildOf v path = some z ∨ z ∈ g.nodes := by
  induction path generalizing v with
  | nil => exact .inl hz
  | cons piece path ih =>
    have hext := h.extends hg hp
    rw [getChildOf] at hz ⊢
    cases hc : (xml.ui.kidsOf v).tops.find? fun c => (xml.data c).name = piece with
    | some c =>
      have hkid := List.mem_of_find?_eq_some hc
      have hmem : c ∈ xml.ui.nodes := Forest.kidsOf_subset (Forest.tops_subset hkid)
      have hone : xml.getChildOf v [piece] = some c := by simp [getChildOf, hc]
      have hone₁ := hext.getChildOf hv hone
      have hfind : ((xml₁.ui.kidsOf v).tops.find? fun c => (xml₁.data c).name = piece) =
          some c := by
        rw [getChildOf] at hone₁
        split at hone₁
        · simp at hone₁
        · simpa [getChildOf, *] using hone₁
      rw [hfind] at hz
      exact ih hmem hz
    | none =>
      split at hz
      · simp at hz
      case h_2 c hc₁ =>
        right
        refine h.getChildOf_new hg hp ?_ hz
        have hkid := List.mem_of_find?_eq_some hc₁
        have hold (hin : c ∈ (xml.ui.kidsOf v).tops) : False := by
          have hname := List.find?_some hc₁
          rw [h.old c (Forest.kidsOf_subset (Forest.tops_subset hin))] at hname
          exact absurd hname (List.find?_eq_none.1 hc c hin)
        rw [h.ui] at hkid
        by_cases hvp : v = parent
        · subst hvp
          rw [Forest.kidsOf_insertAt hg.nodup hp, Forest.tops_insertTops le_rfl, List.take_length,
            List.drop_length, List.append_nil] at hkid
          exact (List.mem_append.1 hkid).elim (fun hin => (hold hin).elim)
            fun hin => Forest.tops_subset hin
        · rw [Forest.tops_kidsOf_insertAt hvp fun hvg => h.fresh v hvg hv] at hkid
          exact (hold hkid).elim

end Inserted

theorem slistPosition_last (n : ℕ) : slistPosition (-1) n = n := if_pos (.inl (by omega))

/-- Elements are inserted behind what is below a node. -/
theorem Good.insertLast (hg : xml.Good) {m : Merge} (hm : xml.lookupMerge id = some m)
    (hp : parent ∈ xml.ui.nodes) (htype : (xml.data parent).type ≠ .separator) (doc : Markup) :
    (xml.insert M id (some parent) (-1) (some doc)).Good ∧
      ∃ g, xml.Inserted (xml.insert M id (some parent) (-1) (some doc)) id parent
        (xml.ui.kidsOf parent).tops.length g
        (.ofTops (doc.elements.filterMap (acceptElement (xml.data parent).type))) := by
  have hinsert : xml.insert M id (some parent) (-1) (some doc) =
      xml.insertElements M id parent (xml.ui.kidsOf parent).tops.length doc.elements.reverse := by
    simp [MooUiXml.insert, hm, hp, htype, slistPosition_last]
  have h := hg.insertElements (M := M) hp hm le_rfl doc.elements.reverse
  rwa [List.reverse_reverse, ← hinsert] at h

/-- An element is inserted behind what is below a node. -/
theorem Good.insertOne (hg : xml.Good) {m : Merge} (hm : xml.lookupMerge id = some m)
    (hp : parent ∈ xml.ui.nodes) {e : Markup.Element} {d : MooUiNode} {k : Forest MooUiNode}
    (he : acceptElement (xml.data parent).type e = some (d, k)) :
    let xml₁ := xml.insert M id (some parent) (-1) (some (.element e.name e.attrs e.children .nil))
    xml₁.Good ∧ ∃ g, xml.Inserted xml₁ id parent (xml.ui.kidsOf parent).tops.length g
      (.node d k .nil) := by
  have htype : (xml.data parent).type ≠ .separator := fun h => by
    rw [h, acceptElement] at he
    split at he
    · simp at he
    case h_2 d' k' _ => cases hd : d'.type <;> simp [canHold, hd] at he
  have h := hg.insertLast (M := M) hm hp htype (.element e.name e.attrs e.children .nil)
  simpa [Markup.elements, he, Forest.ofTops] using h

theorem insert_refused {e : Markup.Element} (he : acceptElement (xml.data parent).type e = none) :
    xml.insert M id (some parent) (-1) (some (.element e.name e.attrs e.children .nil)) = xml := by
  unfold MooUiXml.insert
  split
  case h_1 q m doc hp _ hdoc =>
    obtain rfl : parent = q := by simpa using hp
    obtain rfl := Option.some.inj hdoc
    split
    · rfl
    · simp [Markup.elements, insertElements, he]
  case h_2 => rfl

/-- What is inserted comes behind the others. -/
theorem Good.insert_extends (hg : xml.Good) (node : Option ℕ) (markup : Option Markup) :
    xml.Extends (xml.insert M id node (-1) markup) := by
  unfold MooUiXml.insert
  split
  case h_1 parent m doc hp hm =>
    split
    · exact .refl xml
    case isFalse hin =>
      have hparent : parent ∈ xml.ui.nodes := by tauto
      rw [slistPosition_last]
      obtain ⟨-, g, h⟩ := hg.insertElements (M := M) hparent hm le_rfl doc.elements.reverse
      exact h.extends hg hparent
  case h_2 => exact .refl xml

theorem Good.insertMarkup_extends (hg : xml.Good) (path : Option (List UInt8))
    (markup : Option Markup) : xml.Extends (xml.insertMarkup M id path (-1) markup) := by
  unfold MooUiXml.insertMarkup
  split
  · exact hg.insert_extends ..
  · split
    · exact .refl xml
    · exact hg.insert_extends ..

theorem Good.insertMarkup (hg : xml.Good) (path : Option (List UInt8)) (pos : ℤ)
    (markup : Option Markup) : (xml.insertMarkup M id path pos markup).Good := by
  unfold MooUiXml.insertMarkup
  split
  · exact hg.insert ..
  · split
    · exact hg
    · exact hg.insert ..

/-! ## Taking a merge back -/

/-- What has come into the tree belongs to the last merge, and goes with its nodes. -/
structure Undoable (xml xml₁ : MooUiXml) (id : ℕ) : Prop where
  nodes : xml.ui.nodes ⊆ xml₁.ui.nodes
  merge : ∀ m rest, xml.mergedUi = m :: rest → m.id = id → ∃ m₁, xml₁.mergedUi = m₁ :: rest ∧
    m₁.id = id ∧ m.nodes ⊆ m₁.nodes ∧ (∀ x ∈ m₁.nodes, x ∈ m.nodes ∨ x ∉ xml.ui.nodes) ∧
    ∀ p : ℕ → Bool, (∀ x ∈ m₁.nodes, p x = true) → xml₁.ui.without p = xml.ui.without p

theorem Undoable.refl (xml : MooUiXml) (id : ℕ) : xml.Undoable xml id :=
  ⟨List.Subset.refl _, fun m _ hm hid =>
    ⟨m, hm, hid, List.Subset.refl _, fun _ => .inl, fun _ _ => rfl⟩⟩

theorem Undoable.trans (h : xml.Undoable xml₁ id) (h₁ : xml₁.Undoable xml₂ id) :
    xml.Undoable xml₂ id := by
  refine ⟨fun _ hx => h₁.nodes (h.nodes hx), fun m rest hm hid => ?_⟩
  obtain ⟨m₁, hm₁, hid₁, hsub₁, hnew₁, hui₁⟩ := h.merge m rest hm hid
  obtain ⟨m₂, hm₂, hid₂, hsub₂, hnew₂, hui₂⟩ := h₁.merge m₁ rest hm₁ hid₁
  refine ⟨m₂, hm₂, hid₂, fun _ hx => hsub₂ (hsub₁ hx), fun x hx => ?_, fun p hp => ?_⟩
  · obtain hx | hx := hnew₂ x hx
    · exact hnew₁ x hx
    · exact .inr fun hin => hx (h.nodes hin)
  · exact (hui₂ p hp).trans (hui₁ p fun x hx => hp x (hsub₂ hx))

theorem Good.addNode_undoable (hg : xml.Good) (hp : parent ∈ xml.ui.nodes) (j : ℕ)
    (d : MooUiNode) (k : Forest MooUiNode) :
    xml.Undoable (xml.addNode M id parent j d k) id := by
  obtain ⟨hn, hf, -, -⟩ := placeNodes_spec M (.node d k .nil) xml.ui.nodes xml.data
  obtain ⟨x, k', hx⟩ : ∃ x k', (placeNodes M (.node d k .nil) xml.ui.nodes xml.data).1 =
    .node x k' .nil := ⟨_, _, rfl⟩
  rw [hx] at hn hf
  have hmem (z : ℕ) : z ∈ (xml.ui.insertAt parent j (.node x k' .nil)).nodes ↔
      z ∈ (Forest.node x k' .nil).nodes ∨ z ∈ xml.ui.nodes := Forest.mem_insertAt hg.nodup hp
  simp only [MooUiXml.addNode, hx, Forest.head_node]
  set data := (placeNodes M (.node d k .nil) xml.ui.nodes xml.data).2
  set g : Forest ℕ := .node x k' .nil with hgdef
  set xml' : MooUiXml := { xml with ui := xml.ui.insertAt parent j g, data := data } with hxml'
  have hxg : x ∈ g.nodes := by simp [hgdef]
  refine ⟨fun z hz => (hmem z).2 (.inr hz), fun m rest hm hid => ?_⟩
  refine ⟨xml'.mergeAddNode x m, ?_, ?_, ?_, ?_, fun p hall => ?_⟩
  · simp only [hm, changeMerge, if_pos hid]
  · rw [mergeAddNode_id, hid]
  · obtain ⟨-, h⟩ | ⟨-, h⟩ := @mergeAddNode_nodes xml' x m <;> simp [h]
  · intro y hy
    obtain ⟨-, h⟩ | ⟨-, h⟩ := @mergeAddNode_nodes xml' x m
    · exact .inl (h ▸ hy)
    · rw [h] at hy
      obtain rfl | hy := List.mem_cons.1 hy
      · exact .inr (hf y hxg)
      · exact .inl hy
  · refine Forest.without_insertAt hg.nodup ?_
    obtain ⟨⟨y, hy, hxy⟩, h⟩ | ⟨-, h⟩ := @mergeAddNode_nodes xml' x m
    · -- the node is below another one of the merge
      refine .inr ⟨y, hall y (h ▸ hy), ?_⟩
      have hin := (hg.listed m (by simp [hm]) y hy).1
      obtain hold | ⟨-, hold⟩ := (Forest.mem_under_insertAt hg.nodup fun hyg => hf y hyg hin).1 hxy
      · exact absurd (Forest.under_subset hold) (hf x hxg)
      · exact hold
    · exact .inl (by simpa [hgdef] using hall x (by simp [h]))

theorem Good.insertElements_undoable (hg : xml.Good) (hp : parent ∈ xml.ui.nodes) {m : Merge}
    (hm : xml.lookupMerge id = some m) (j : ℕ) (es : List Markup.Element) :
    xml.Undoable (xml.insertElements M id parent j es) id := by
  induction es generalizing xml m with
  | nil => exact .refl xml id
  | cons e before ih =>
    rw [MooUiXml.insertElements]
    split
    · exact ih hg hp hm
    case h_2 d k _ =>
      obtain ⟨hg₁, g₁, h₁⟩ := hg.addNode (M := M) (j := j) hp hm d k
      obtain ⟨_, m₁, -, hm₁, -⟩ := h₁.owned
      have hadd : xml.Undoable (xml.addNode M id parent j d k) id := hg.addNode_undoable hp j d k
      exact hadd.trans (ih hg₁ (hadd.nodes hp) hm₁)

theorem Good.insert_undoable (hg : xml.Good) (node : Option ℕ) (pos : ℤ)
    (markup : Option Markup) : xml.Undoable (xml.insert M id node pos markup) id := by
  unfold MooUiXml.insert
  split
  case h_1 parent m doc hp hm =>
    split
    · exact .refl xml id
    case isFalse hin => exact hg.insertElements_undoable (by tauto) hm _ _
  case h_2 => exact .refl xml id

theorem Good.insertMarkup_undoable (hg : xml.Good) (path : Option (List UInt8)) (pos : ℤ)
    (markup : Option Markup) : xml.Undoable (xml.insertMarkup M id path pos markup) id := by
  unfold MooUiXml.insertMarkup
  split
  · exact hg.insert_undoable ..
  · split
    · exact .refl xml id
    · exact hg.insert_undoable ..

/-- The last merge is taken back, and the tree is what it was before. -/
theorem Good.removeUi_undo (hg : xml.Good) (hg₁ : xml₁.Good)
    (h : xml.newMergeId.Undoable xml₁ xml.newMergeId.lastMergeId) {xml₂ : MooUiXml}
    (hui : xml₂.ui = xml₁.ui) (hmerged : xml₂.mergedUi = xml₁.mergedUi) :
    ∃ xml₃, xml₂.removeUi xml.newMergeId.lastMergeId = some xml₃ ∧ xml₃.ui = xml.ui ∧
      xml₃.mergedUi = xml.mergedUi ∧ xml₃.data = xml₂.data := by
  obtain ⟨m, hm, hid, -, hnew, hback⟩ := h.merge _ _ rfl rfl
  have hg₂ : xml₂.Good := by
    obtain ⟨hroot, hnodup, hlisted, honce, hapart⟩ := hg₁
    rw [← hui] at hroot hnodup hlisted hapart
    rw [← hmerged] at hlisted honce hapart
    exact ⟨hroot, hnodup, hlisted, honce, hapart⟩
  have hlook : xml₂.lookupMerge xml.newMergeId.lastMergeId = some m := by
    rw [MooUiXml.lookupMerge, hmerged, hm]
    simp [hid]
  have hnot (x : ℕ) (hx : x ∈ m.nodes) : x ∉ xml.ui.nodes := by
    simpa [MooUiXml.newMergeId] using hnew x hx
  have htree : xml₂.ui.without (· ∈ m.nodes) = xml.ui := by
    rw [hui, hback _ fun x hx => decide_eq_true hx]
    exact Forest.without_of_forall fun x hx => decide_eq_false fun hxm => hnot x hxm hx
  refine ⟨_, hg₂.removeUi_eq hlook, htree, ?_, rfl⟩
  have hrest : xml.mergedUi.map (inTree xml.ui) = xml.mergedUi := by
    rw [List.map_congr_left (g := fun m => m) fun m' hm' => ?_, List.map_id']
    have hall := List.filter_eq_self.2 fun x hx => decide_eq_true (hg.listed m' hm' x hx).1
    simp [inTree, hall]
  simp only [withoutMerge, htree, hmerged, hm, hid]
  rw [List.eraseP_cons_of_pos (by simp [hid])]
  exact hrest

end MooUiXml

end Medit
