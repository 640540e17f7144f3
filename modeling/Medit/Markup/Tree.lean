import Medit.Library.Machine
import Medit.Markup.Document

/-!
# The tree of a markup document

The pointers of a document are those of a tree, and the calls change the tree.

## Main definitions

* `MooMarkupDoc.Holds` — a document holds a tree.
* `MooMarkupDoc.Sound` — properties are there once, and a text is the content of its element.

## Main results

* `Holds.addNode`, `Holds.deleteNode`, `Holds.deleteChildren` — the tree after a change.
* `Good.step` — every call keeps a sound tree.
-/

namespace Medit

open LinkedForest Function

namespace MooMarkupDoc

/-- The nodes in use are those of a tree, with the pointers of the tree. -/
structure Holds (d : MooMarkupDoc) (t : Forest ℕ) : Prop where
  root : ∃ k, t = .node d.doc k .nil
  linked : Siblings.Linked d.links none none t
  nodup : t.nodes.Nodup
  live : ∀ x, x ∈ d.live ↔ x ∈ t.nodes

variable {M : KeyedQueue.Allocator} {d : MooMarkupDoc} {t k : Forest ℕ} {x y parent : ℕ}
  {node : MooMarkupNode}

/-! ## Reading the tree -/

theorem walk_eq {links : ℕ → Siblings.Links ℕ} {p q : Option ℕ} {n : ℕ}
    (hl : Siblings.Linked links p q k) (hn : k.tops.length ≤ n) : walk links n k.head = k.tops := by
  induction k generalizing q n with
  | nil => cases n <;> rfl
  | node x k r _ ihr =>
    cases n with
    | zero => simp at hn
    | succ n =>
      simp only [Forest.head_node, Forest.tops_node, walk, hl.1]
      rw [ihr hl.2.2 (by simpa using hn)]

theorem freeNodes_eq {links : ℕ → Siblings.Links ℕ} {p q : Option ℕ} {n : ℕ}
    (hl : Siblings.Linked links p q k) (hn : k.nodes.length ≤ n) :
    freeNodes links n k.head = k.nodes := by
  induction k generalizing p q n with
  | nil => cases n <;> rfl
  | node x k r ihk ihr =>
    simp only [Forest.nodes_node, List.length_cons, List.length_append] at hn
    cases n with
    | zero => omega
    | succ n =>
      simp only [Forest.head_node, Forest.nodes_node, freeNodes, hl.1]
      rw [ihk hl.2.1 (by omega), ihr hl.2.2 (by omega)]

namespace Holds

theorem doc_mem (hh : d.Holds t) : d.doc ∈ t.nodes := by
  obtain ⟨k, rfl⟩ := hh.root
  simp

theorem tops_eq (hh : d.Holds t) : t.tops = [d.doc] := by
  obtain ⟨k, rfl⟩ := hh.root
  rfl

theorem nodes_length_le (hh : d.Holds t) : t.nodes.length ≤ d.live.length :=
  (List.subperm_of_subset hh.nodup fun x hx => (hh.live x).2 hx).length_le

theorem kidsOf_length_le (hh : d.Holds t) (hx : x ∈ t.nodes) :
    (t.kidsOf x).nodes.length ≤ d.live.length := by
  have hnd := (hh.linked.kidsOf hh.nodup hx).2.2.2
  have hsub := (List.subperm_of_subset hnd Forest.kidsOf_subset).length_le
  have hle := hh.nodes_length_le
  omega

theorem childrenOf_eq (hh : d.Holds t) (hx : x ∈ t.nodes) :
    d.childrenOf x = (t.kidsOf x).tops := by
  obtain ⟨hk, hfirst, -⟩ := hh.linked.kidsOf hh.nodup hx
  have hlen := hh.kidsOf_length_le hx
  have htops := Forest.tops_length_le (f := t.kidsOf x)
  rw [childrenOf, hfirst, walk_eq hk (by omega)]

theorem childrenOf_subset (hh : d.Holds t) (hx : x ∈ t.nodes) : d.childrenOf x ⊆ t.nodes := by
  rw [hh.childrenOf_eq hx]
  exact fun y hy => Forest.kidsOf_subset (Forest.tops_subset hy)

/-! ## Changing it -/

theorem addNode (hh : d.Holds t) (hp : parent ∈ t.nodes) :
    (d.addNode M parent node).1 ∉ t.nodes ∧ (d.addNode M parent node).2.Holds
      (t.addLast parent (.node (d.addNode M parent node).1 .nil .nil)) := by
  have hnew : M.get d.live.length d.live ∉ t.nodes := fun h =>
    M.fresh d.live.length d.live ((hh.live _).2 h)
  have hperm := Forest.perm_addLast (g := .node (M.get d.live.length d.live) .nil .nil) hh.nodup hp
  refine ⟨hnew, ?_, hh.linked.pushLast hh.nodup hp hnew, ?_, fun x => ?_⟩
  · obtain ⟨k, rfl⟩ := hh.root
    simp only [Forest.addLast, MooMarkupDoc.addNode]
    split <;> exact ⟨_, rfl⟩
  · rw [MooMarkupDoc.addNode, hperm.nodup_iff]
    simpa using ⟨hnew, hh.nodup⟩
  · simp only [MooMarkupDoc.addNode, hperm.mem_iff, List.mem_cons, hh.live]
    simp

theorem deleteNode (hh : d.Holds t) (hx : x ∈ t.nodes) (hdoc : x ≠ d.doc) :
    (d.deleteNode x).Holds (t.without (· = x)) := by
  have htop : x ∉ t.tops := by simpa [hh.tops_eq] using hdoc
  obtain htop' | ⟨z, hz, hpar, hxz⟩ := hh.linked.owner hh.nodup hx
  · exact absurd htop' htop
  obtain ⟨hk, hfirst, -⟩ := hh.linked.kidsOf hh.nodup hx
  have hin : x ∈ d.childrenOf z := by rwa [hh.childrenOf_eq hz]
  have hfree : x :: freeNodes d.links d.live.length (d.links x).first = t.under x := by
    rw [hfirst, freeNodes_eq hk (hh.kidsOf_length_le hx), Forest.under_eq hh.nodup hx]
  have hdel : d.deleteNode x = { d with
      links := Siblings.unlink d.links x
      live := d.live.filter (· ∉ t.under x)
      modified := true } := by
    have hin' : x ∈ ({ d with modified := true } : MooMarkupDoc).childrenOf z := hin
    simp only [MooMarkupDoc.deleteNode, hpar, hin', not_true_eq_false, if_false]
    rw [← hfree]
  rw [hdel]
  refine ⟨?_, hh.linked.unlink hh.nodup hx htop, Forest.without_sublist.nodup hh.nodup, fun y => ?_⟩
  · obtain ⟨k, rfl⟩ := hh.root
    exact ⟨k.without (· = x), by simp [Forest.without, Ne.symm hdoc]⟩
  · simp [Forest.mem_without hh.nodup, hh.live]

theorem deleteChildren {n : ℕ} (hh : d.Holds t) (hx : x ∈ t.nodes)
    (hn : (t.kidsOf x).tops.length ≤ n) : ∃ p, (deleteChildren n d x).Holds (t.without p) ∧
      x ∈ (t.without p).nodes ∧ (t.without p).kidsOf x = .nil := by
  induction n generalizing d t with
  | zero =>
    have hnil : t.kidsOf x = .nil := by
      cases hk : t.kidsOf x with
      | nil => rfl
      | node c k r => simp [hk] at hn
    have hself : t.without (fun _ => false) = t := Forest.without_of_forall fun _ _ => rfl
    exact ⟨fun _ => false, by rwa [hself], by rwa [hself], by rwa [hself]⟩
  | succ n ih =>
    obtain ⟨hk, hfirst, -, hnd⟩ := hh.linked.kidsOf hh.nodup hx
    rw [MooMarkupDoc.deleteChildren]
    cases hkids : t.kidsOf x with
    | nil =>
      rw [hkids] at hfirst
      have hself : t.without (fun _ => false) = t := Forest.without_of_forall fun _ _ => rfl
      simp only [hfirst, Forest.head_nil]
      exact ⟨fun _ => false, by rwa [hself], by rwa [hself], by rwa [hself]⟩
    | node c k r =>
      rw [hkids] at hk hfirst hn hnd
      simp only [hfirst, Forest.head_node]
      have hc : c ∈ t.nodes := Forest.kidsOf_subset (x := x) (by simp [hkids])
      have hpar : (d.links c).parent = some x := hk.parent_of_top (by simp)
      have hcd : c ≠ d.doc := fun h => by
        have hdoc := hh.linked.parent_of_top (x := d.doc) (by simp [hh.tops_eq])
        rw [← h, hpar] at hdoc
        simp at hdoc
      have hxc : x ∉ t.under c := Forest.not_mem_under_of_kidsOf hh.nodup (by simp [hkids])
      have hh₁ := hh.deleteNode hc hcd
      have hx₁ : x ∈ (t.without (· = c)).nodes := by
        simpa [Forest.mem_without hh.nodup, hx] using hxc
      have hkids₁ : (t.without (· = c)).kidsOf x = r := by
        simp only [Forest.nodes_node, List.nodup_cons, List.mem_append, not_or] at hnd
        rw [Forest.kidsOf_without hh.nodup hx₁, hkids]
        simp [Forest.without, Siblings.without_eq_of_not_mem hnd.1.2]
      obtain ⟨p, hh₂, hx₂, hnil⟩ := ih hh₁ hx₁ (by simpa [hkids₁] using hn)
      rw [Forest.without_without] at hh₂ hx₂ hnil
      exact ⟨_, hh₂, hx₂, hnil⟩

end Holds

/-! ## Sound documents -/

/-- Every text is the content of the node it is in. -/
def Matches (data : ℕ → MooMarkupNode) : Forest ℕ → Prop
  | .nil => True
  | .node x k r =>
    (∀ y ∈ k.tops, (data y).type = .text → (data x).content = some (data y).text) ∧
      Matches data k ∧ Matches data r

attribute [elab_as_elim] Matches.induct_unfolding

/-- Types, contents and texts matter. -/
theorem Matches.same {data data' : ℕ → MooMarkupNode} (hm : Matches data t)
    (heq : ∀ x ∈ t.nodes, (data' x).type = (data x).type ∧ (data' x).content = (data x).content ∧
      (data' x).text = (data x).text) : Matches data' t := by
  induction t with
  | nil => trivial
  | node x k r ihk ihr =>
    simp only [Forest.nodes_node, List.mem_cons, List.mem_append] at heq
    refine ⟨fun y hy => ?_, ihk hm.2.1 fun y hy => heq y (.inr (.inl hy)),
      ihr hm.2.2 fun y hy => heq y (.inr (.inr hy))⟩
    obtain ⟨htype, -, htext⟩ := heq y (.inr (.inl (Forest.tops_subset hy)))
    rw [(heq x (.inl rfl)).2.1, htype, htext]
    exact hm.1 y hy

theorem Matches.congr {data data' : ℕ → MooMarkupNode} (hm : Matches data t)
    (heq : ∀ x ∈ t.nodes, data' x = data x) : Matches data' t :=
  hm.same fun x hx => by simp [heq x hx]

theorem Matches.without {data : ℕ → MooMarkupNode} {p : ℕ → Bool} (hm : Matches data t) :
    Matches data (t.without p) := by
  induction t with
  | nil => trivial
  | node x k r ihk ihr =>
    rw [Forest.without]
    split
    · exact ihr hm.2.2
    · exact ⟨fun y hy => hm.1 y (Forest.tops_without_subset hy), ihk hm.2.1, ihr hm.2.2⟩

/-- The content of a node without children does not matter. -/
theorem Matches.assign {data : ℕ → MooMarkupNode} (hm : Matches data t) (ht : t.nodes.Nodup)
    {content : Option (List UInt8)} (hx : t.kidsOf x = .nil) :
    Matches (update data x { data x with content := content }) t := by
  induction t with
  | nil => trivial
  | node z k r ihk ihr =>
    simp only [Forest.nodes_node, List.nodup_cons, List.mem_append, not_or, List.nodup_append] at ht
    rw [Forest.kidsOf] at hx
    split at hx
    case isTrue h =>
      subst h
      have hr := hm.2.2.congr fun y hy => update_of_ne (fun h : y = z => ht.1.2 (h ▸ hy))
        { data z with content := content } data
      rw [hx]
      exact ⟨by simp, trivial, hr⟩
    case isFalse h =>
      have hkr : k.kidsOf x = .nil ∧ r.kidsOf x = .nil := by
        cases hk : k.kidsOf x <;> simp_all
      refine ⟨fun y hy htext => ?_, ihk hm.2.1 ht.2.1 hkr.1, ihr hm.2.2 ht.2.2.1 hkr.2⟩
      have hy' := hm.1 y hy
      rw [update_of_ne h]
      by_cases hyx : y = x
      · subst hyx
        simp only [update_self] at htext ⊢
        exact hy' htext
      · rw [update_of_ne hyx] at htext ⊢
        exact hy' htext

theorem Matches.append {data : ℕ → MooMarkupNode} (hk : Matches data k) (ht : Matches data t) :
    Matches data (k.append t) := by
  induction k with
  | nil => exact ht
  | node x k r _ ihr => exact ⟨hk.1, hk.2.1, ihr hk.2.2⟩

/-- A new node matches if a text is the content of the node it is put into. -/
theorem Matches.addLast {data : ℕ → MooMarkupNode} (hm : Matches data t) (hx : x ∉ t.nodes)
    (htext : node.type = .text → (data parent).content = some node.text) :
    Matches (update data x node) (t.addLast parent (.node x .nil .nil)) := by
  have hdata : ∀ y ∈ t.nodes, update data x node y = data y := fun y hy =>
    update_of_ne (fun h : y = x => hx (h ▸ hy)) _ _
  induction t with
  | nil => trivial
  | node z k r ihk ihr =>
    simp only [Forest.nodes_node, List.mem_cons, List.mem_append, not_or] at hx hdata
    have hkdata := fun y hy => hdata y (.inr (.inl hy))
    have hrdata := fun y hy => hdata y (.inr (.inr hy))
    have hold : ∀ y ∈ k.tops, (update data x node y).type = .text →
        (update data x node z).content = some (update data x node y).text := fun y hy => by
      rw [hdata z (.inl rfl), hkdata y (Forest.tops_subset hy)]
      exact hm.1 y hy
    rw [Forest.addLast]
    split
    case isTrue h =>
      subst h
      refine ⟨fun y hy => ?_, (hm.2.1.congr hkdata).append ⟨by simp, trivial, trivial⟩,
        hm.2.2.congr hrdata⟩
      rw [Forest.tops_append, List.mem_append] at hy
      obtain hy | hy := hy
      · exact hold y hy
      · obtain rfl : y = x := by simpa using hy
        rw [hdata z (.inl rfl), update_self]
        exact htext
    case isFalse h =>
      refine ⟨fun y hy => hold y ?_, ihk hm.2.1 hx.2.1 hkdata, ihr hm.2.2 hx.2.2 hrdata⟩
      rwa [Forest.tops_addLast] at hy

/-- A document with a tree in which properties are there once, and texts match. -/
structure Good (d : MooMarkupDoc) (t : Forest ℕ) : Prop where
  holds : d.Holds t
  doc : (d.data d.doc).type = .doc
  attrs : ∀ x ∈ t.nodes, ((d.data x).attrs.map Prod.fst).Nodup
  texts : Matches d.data t

theorem good_new (name : String) : ∃ t, (new M name).Good t := by
  refine ⟨.node (M.get 0 []) .nil .nil, ⟨⟨.nil, rfl⟩, ⟨rfl, trivial, trivial⟩, by simp, ?_⟩, rfl,
    fun x _ => ?_, ⟨by simp, trivial, trivial⟩⟩
  · simp [new]
  · simp [new]

theorem mem_setAttr {name n : String} {val : Option (List UInt8)} {attrs : List (String × List UInt8)}
    (h : n ∈ (setAttr name val attrs).map Prod.fst) : n ∈ attrs.map Prod.fst ∨ n = name := by
  fun_induction setAttr name val attrs <;> grind

theorem nodup_setAttr (name : String) (val : Option (List UInt8)) {attrs : List (String × List UInt8)}
    (h : (attrs.map Prod.fst).Nodup) : ((setAttr name val attrs).map Prod.fst).Nodup := by
  fun_induction setAttr name val attrs with
  | case5 attr rest hne ih =>
    rw [List.map_cons, List.nodup_cons] at h ⊢
    refine ⟨fun hin => ?_, ih h.2⟩
    obtain hin | hin := mem_setAttr hin
    · exact h.1 hin
    · exact hne hin
  | _ => simp_all

/-! ## Calls -/

namespace Good

theorem modified (hg : d.Good t) (b : Bool) : ({ d with modified := b } : MooMarkupDoc).Good t :=
  ⟨⟨hg.holds.root, hg.holds.linked, hg.holds.nodup, hg.holds.live⟩, hg.doc, hg.attrs, hg.texts⟩

theorem addNode (hg : d.Good t) (hp : parent ∈ t.nodes) (hattrs : (node.attrs.map Prod.fst).Nodup)
    (htext : node.type = .text → (d.data parent).content = some node.text) :
    (d.addNode M parent node).1 ∉ t.nodes ∧ (d.addNode M parent node).2.Good
      (t.addLast parent (.node (d.addNode M parent node).1 .nil .nil)) := by
  obtain ⟨hnew, hh⟩ := hg.holds.addNode (M := M) hp
  have hold : ∀ x ∈ t.nodes, (d.addNode M parent node).2.data x = d.data x := fun x hx =>
    update_of_ne (fun h => hnew (by rwa [h] at hx)) _ _
  refine ⟨hnew, hh, ?_, fun x hx => ?_, hg.texts.addLast hnew htext⟩
  · exact (congrArg MooMarkupNode.type (hold d.doc hg.holds.doc_mem)).trans hg.doc
  · rw [(Forest.perm_addLast hg.holds.nodup hp).mem_iff] at hx
    rcases List.mem_append.1 hx with hx | hx
    · obtain rfl : x = (d.addNode M parent node).1 := by simpa using hx
      simpa [MooMarkupDoc.addNode] using hattrs
    · rw [hold x hx]
      exact hg.attrs x hx

theorem elementNew (hg : d.Good t) (hp : parent ∈ t.nodes) (name : String) :
    (d.elementNew M parent name []).1 ∉ t.nodes ∧ (d.elementNew M parent name []).2.Good
      (t.addLast parent (.node (d.elementNew M parent name []).1 .nil .nil)) :=
  hg.addNode hp (by simp [elementData]) (by simp [elementData])

theorem deleteNode_data (d : MooMarkupDoc) (x : ℕ) :
    (d.deleteNode x).data = d.data ∧ (d.deleteNode x).doc = d.doc := by
  unfold MooMarkupDoc.deleteNode
  grind

theorem deleteNode (hg : d.Good t) (hx : x ∈ t.nodes) : ∃ t', (d.deleteNode x).Good t' := by
  by_cases hdoc : x = d.doc
  · have hpar := hg.holds.linked.parent_of_top (x := d.doc) (by simp [hg.holds.tops_eq])
    subst hdoc
    refine ⟨t, ?_⟩
    simpa [MooMarkupDoc.deleteNode, hpar] using hg
  · have hh := hg.holds.deleteNode hx hdoc
    have hdata := deleteNode_data d x
    refine ⟨_, hh, ?_, fun y hy => ?_, ?_⟩
    · rw [hdata.1, hdata.2]
      exact hg.doc
    · rw [hdata.1]
      exact hg.attrs y (Forest.without_subset hy)
    · rw [hdata.1]
      exact hg.texts.without

/-- What `create_element` gives is a new element without children. -/
theorem createElementIn (hg : d.Good t) (hp : parent ∈ t.nodes) {path : List String}
    {elm : ℕ} {d' : MooMarkupDoc} (h : d.createElementIn M parent path = some (elm, d')) :
    ∃ t', d'.Good t' ∧ elm ∈ t'.nodes ∧ t'.kidsOf elm = .nil ∧ (d'.data elm).type = .element := by
  induction path generalizing d t parent with
  | nil => simp [MooMarkupDoc.createElementIn] at h
  | cons name rest ih =>
    obtain ⟨hnew, hg'⟩ := hg.elementNew (M := M) hp name
    have hin : (d.elementNew M parent name []).1 ∈
        (t.addLast parent (.node (d.elementNew M parent name []).1 .nil .nil)).nodes := by
      simp [(Forest.perm_addLast hg.holds.nodup hp).mem_iff]
    cases rest with
    | nil =>
      obtain ⟨rfl, rfl⟩ : (d.elementNew M parent name []).1 = elm ∧
          (d.elementNew M parent name []).2 = d' := by
        simpa [MooMarkupDoc.createElementIn, Prod.ext_iff] using h
      refine ⟨_, hg', hin, ?_, ?_⟩
      · rw [Forest.kidsOf_addLast_new hg.holds.nodup hp hnew]
        simp [Forest.kidsOf]
      · simp [MooMarkupDoc.elementNew, MooMarkupDoc.addNode, elementData]
    | cons name' rest =>
      rw [MooMarkupDoc.createElementIn] at h
      split at h
      case h_1 child hchild =>
        exact ih hg (hg.holds.childrenOf_subset hp (List.mem_of_find?_eq_some hchild)) h
      case h_2 => exact ih hg' hin h
      · simp

theorem createElement (hg : d.Good t) (hp : parent ∈ t.nodes) (path : String) :
    d.createElement M parent path = (none, d) ∨ ∃ elm d' t',
      d.createElement M parent path = (some elm, d') ∧ d'.Good t' ∧ elm ∈ t'.nodes ∧
        t'.kidsOf elm = .nil ∧ (d'.data elm).type = .element := by
  unfold MooMarkupDoc.createElement
  split
  case h_3 => exact .inl rfl
  case h_4 => exact .inl rfl
  all_goals
    split
    · exact .inl rfl
    case h_2 elm d' h =>
      obtain ⟨t', hg', helm⟩ := hg.createElementIn hp h
      exact .inr ⟨elm, d', t', rfl, hg', helm⟩

/-- The content of an element without children is assigned. -/
theorem assignContent (hg : d.Good t) (hx : t.kidsOf x = .nil) (content : Option (List UInt8)) :
    (d.assignContent x content).Good t := by
  have hsame : ∀ y, ((d.assignContent x content).data y).type = (d.data y).type ∧
      ((d.assignContent x content).data y).attrs = (d.data y).attrs := fun y => by
    simp only [MooMarkupDoc.assignContent, update_apply]
    split
    case isTrue h => simp [h]
    case isFalse h => simp
  refine ⟨⟨hg.holds.root, hg.holds.linked, hg.holds.nodup, hg.holds.live⟩, ?_, fun y hy => ?_, ?_⟩
  · exact (hsame d.doc).1.trans hg.doc
  · rw [(hsame y).2]
    exact hg.attrs y hy
  · exact hg.texts.assign hg.holds.nodup hx

/-- A text is put into an element without children, and becomes its content. -/
theorem putText (hg : d.Good t) (hx : x ∈ t.nodes) (hkids : t.kidsOf x = .nil) (text : List UInt8) :
    ∃ t', ((d.assignContent x (some text)).textNodeNew M .text x text).2.Good t' :=
  ⟨_, ((hg.assignContent hkids (some text)).addNode hx (by simp [textData])
    (by simp [MooMarkupDoc.assignContent, textData])).2⟩

theorem createTextElement (hg : d.Good t) (hp : parent ∈ t.nodes) (path : String)
    (content : Option (List UInt8)) :
    ∃ t', (d.createTextElement M parent path content).2.Good t' := by
  unfold MooMarkupDoc.createTextElement
  split
  · obtain h | ⟨elm, d', t', h, hg', helm, hkids, -⟩ := hg.createElement (M := M) hp path
    · rw [h]
      exact ⟨t, hg⟩
    · rw [h]
      -- the content does not depend on when it is assigned
      have hne : elm ≠ M.get d'.live.length d'.live := fun he =>
        M.fresh d'.live.length d'.live (he ▸ (hg'.holds.live elm).2 helm)
      have hswap : (d'.textNodeNew M .text elm (content.getD [])).2.assignContent elm
          (some (content.getD [])) =
          ((d'.assignContent elm (some (content.getD []))).textNodeNew M .text elm
            (content.getD [])).2 := by
        simp only [MooMarkupDoc.textNodeNew, MooMarkupDoc.addNode, MooMarkupDoc.assignContent,
          update_of_ne hne]
        rw [update_comm hne.symm]
      dsimp only
      rw [hswap]
      exact hg'.putText helm hkids (content.getD [])
  · exact ⟨t, hg⟩

theorem setProp (hg : d.Good t) (elm : ℕ) (name : String) (val : Option (List UInt8)) :
    (d.setProp elm name val).Good t := by
  unfold MooMarkupDoc.setProp
  split
  · have hsame : ∀ y, (update d.data elm { d.data elm with
        attrs := setAttr name val (d.data elm).attrs } y).type = (d.data y).type ∧
        (update d.data elm { d.data elm with
          attrs := setAttr name val (d.data elm).attrs } y).content = (d.data y).content ∧
        (update d.data elm { d.data elm with
          attrs := setAttr name val (d.data elm).attrs } y).text = (d.data y).text := fun y => by
      by_cases hy : y = elm
      · simp [hy]
      · simp [hy]
    refine ⟨⟨hg.holds.root, hg.holds.linked, hg.holds.nodup, hg.holds.live⟩, ?_, fun y hy => ?_, ?_⟩
    · exact (hsame d.doc).1.trans hg.doc
    · by_cases hy' : y = elm
      · subst hy'
        simpa using nodup_setAttr name val (hg.attrs y hy)
      · simpa [hy'] using hg.attrs y hy
    · exact hg.texts.same fun y _ => hsame y
  · exact hg

theorem deleteChildren_data (n : ℕ) (d : MooMarkupDoc) (x : ℕ) :
    (deleteChildren n d x).data = d.data ∧ (deleteChildren n d x).doc = d.doc := by
  induction n generalizing d with
  | zero => exact ⟨rfl, rfl⟩
  | succ n ih =>
    rw [deleteChildren]
    split
    · exact ⟨rfl, rfl⟩
    · rw [(ih _).1, (ih _).2]
      exact deleteNode_data d _

theorem deleteNode_assignContent (d : MooMarkupDoc) (x y : ℕ) (content : Option (List UInt8)) :
    (d.assignContent x content).deleteNode y = (d.deleteNode y).assignContent x content := by
  unfold MooMarkupDoc.deleteNode MooMarkupDoc.assignContent MooMarkupDoc.childrenOf
  dsimp only
  split
  · rfl
  · split <;> rfl

theorem deleteChildren_assignContent (n : ℕ) (d : MooMarkupDoc) (x : ℕ)
    (content : Option (List UInt8)) : deleteChildren n (d.assignContent x content) x =
      (deleteChildren n d x).assignContent x content := by
  induction n generalizing d with
  | zero => rfl
  | succ n ih =>
    rw [deleteChildren, deleteChildren]
    have hfirst : ((d.assignContent x content).links x).first = (d.links x).first := rfl
    rw [hfirst]
    split
    · rfl
    · rw [deleteNode_assignContent, ih]

theorem setContent (hg : d.Good t) (hx : x ∈ t.nodes) (content : Option (List UInt8)) :
    ∃ t', (d.setContent M x content).Good t' := by
  unfold MooMarkupDoc.setContent
  split
  · have hlen := hg.holds.kidsOf_length_le hx
    have htops := Forest.tops_length_le (f := t.kidsOf x)
    obtain ⟨p, hh, hin, hnil⟩ := hg.holds.deleteChildren (n := d.live.length) hx (by omega)
    obtain ⟨hdata, hdoc⟩ := deleteChildren_data d.live.length d x
    have hg' : (deleteChildren d.live.length d x).Good (t.without p) := by
      refine ⟨hh, ?_, fun y hy => ?_, ?_⟩
      · rw [hdata, hdoc]
        exact hg.doc
      · rw [hdata]
        exact hg.attrs y (Forest.without_subset hy)
      · rw [hdata]
        exact hg.texts.without
    have hlive : (d.assignContent x content).live = d.live := rfl
    dsimp only
    rw [hlive, deleteChildren_assignContent]
    cases content with
    | none => exact ⟨_, hg'.assignContent hnil none⟩
    | some text => exact hg'.putText hin hnil text
  · exact ⟨t, hg⟩

theorem createRootElement (hg : d.Good t) (name : String) :
    ∃ t', (d.createRootElement M name).2.Good t' := by
  unfold MooMarkupDoc.createRootElement
  split
  · exact ⟨t, hg⟩
  · exact ⟨_, (hg.elementNew hg.holds.doc_mem name).2⟩

theorem step (hg : d.Good t) {c : Call} (hc : ∀ x ∈ c.node, x ∈ d.live) :
    ∃ t', (d.step M c).Good t' := by
  have hin : ∀ x ∈ c.node, x ∈ t.nodes := fun x hx => (hg.holds.live x).1 (hc x hx)
  cases c with
  | createRootElement name => exact hg.createRootElement name
  | createElement parent path =>
    obtain h | ⟨elm, d', t', h, hg', -⟩ := hg.createElement (M := M) (hin parent rfl) path
    · exact ⟨t, by rwa [MooMarkupDoc.step, h]⟩
    · exact ⟨t', by rwa [MooMarkupDoc.step, h]⟩
  | createTextElement parent path content => exact hg.createTextElement (hin parent rfl) path content
  | setProp elm name val => exact ⟨t, hg.setProp elm name val⟩
  | setContent node content => exact hg.setContent (hin node rfl) content
  | deleteNode node => exact hg.deleteNode (hin node rfl)

end Good

/-- The documents that calls make of a new one, when they are given nodes in use. -/
def Reached (M : KeyedQueue.Allocator) (name : String) (d : MooMarkupDoc) : Prop :=
  Machine.Reachable (fun d c => d.step M c) (fun d c => ∀ x ∈ c.node, x ∈ d.live) (new M name) d

theorem Reached.new {name : String} : Reached M name (new M name) := .start

theorem Reached.step {name : String} (h : Reached M name d) {c : Call}
    (hc : ∀ x ∈ c.node, x ∈ d.live) : Reached M name (d.step M c) :=
  Machine.Reachable.step h hc

theorem Reached.good {name : String} (h : Reached M name d) : ∃ t, d.Good t :=
  h.invariant (P := fun d => ∃ t, d.Good t) (good_new name) fun _ _ hc ⟨_, hg⟩ => hg.step hc

/-! ## The tree as it is read -/

/-- The siblings from one on, with what is below them. -/
def readForest (links : ℕ → Siblings.Links ℕ) : ℕ → Option ℕ → Forest ℕ
  | 0, _ => .nil
  | _, none => .nil
  | n + 1, some x => .node x (readForest links n (links x).first) (readForest links n (links x).next)

/-- What is in a document. -/
def dom (d : MooMarkupDoc) : Forest MooMarkupNode :=
  (readForest d.links d.live.length (d.links d.doc).first).map d.data

theorem readForest_eq {links : ℕ → Siblings.Links ℕ} {p q : Option ℕ} {n : ℕ}
    (hl : Siblings.Linked links p q k) (hn : k.nodes.length ≤ n) :
    readForest links n k.head = k := by
  induction k generalizing p q n with
  | nil => cases n <;> rfl
  | node x k r ihk ihr =>
    simp only [Forest.nodes_node, List.length_cons, List.length_append] at hn
    cases n with
    | zero => omega
    | succ n =>
      simp only [Forest.head_node, readForest, hl.1]
      rw [ihk hl.2.1 (by omega), ihr hl.2.2 (by omega)]

theorem Holds.dom_eq (hh : d.Holds t) : d.dom = (t.kidsOf d.doc).map d.data := by
  obtain ⟨hk, hfirst, -⟩ := hh.linked.kidsOf hh.nodup hh.doc_mem
  rw [dom, hfirst, readForest_eq hk (hh.kidsOf_length_le hh.doc_mem)]

end MooMarkupDoc

end Medit
