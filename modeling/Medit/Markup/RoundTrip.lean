import Medit.Markup.Written

/-!
# Parsing what is written

A document that is parsed of what is written has the elements of the document that was written.

## Main definitions

* `domOf` — the nodes that a parser makes of markup.
* `Outline` — the elements with their properties and contents.

## Main results

* `MooMarkupDoc.parse_events` — the handlers make the nodes of what a parser says.
* `MooMarkupDoc.round_trip` — the elements come again.
-/

namespace Medit

open LinkedForest Function

/-! ## What a parser makes -/

/-- The texts of siblings, joined, if there are any. -/
def textContent (f : Forest MooMarkupNode) : Option (List UInt8) :=
  let texts := f.tops.filter (·.type = .text)
  if texts = [] then none else some (texts.flatMap (·.text))

/-- The nodes of markup. -/
def domOf : Markup → Forest MooMarkupNode
  | .nil => .nil
  | .element name attrs children next =>
    .node { elementData name attrs with content := textContent (domOf children) } (domOf children)
      (domOf next)
  | .text s next => .node (textData .text s) .nil (domOf next)

/-- No text is empty, and none comes right after another. -/
def TextsApart : Markup → Prop
  | .nil => True
  | .element _ _ children next => TextsApart children ∧ TextsApart next
  | .text s next => s ≠ [] ∧ (∀ s' next', next ≠ .text s' next') ∧ TextsApart next

/-! ## Pieces -/

theorem pieces_append {a b e : List Written} (h : Pieces (a ++ b) e) :
    ∃ e₁ e₂, e = e₁ ++ e₂ ∧ Pieces a e₁ ∧ Pieces b e₂ := by
  induction a generalizing e with
  | nil => exact ⟨[], e, rfl, .nil, h⟩
  | cons w a ih =>
    cases h with
    | text h =>
      obtain ⟨e₁, e₂, rfl, h₁, h₂⟩ := ih h
      exact ⟨_, e₂, (List.append_assoc ..).symm, .text h₁, h₂⟩
    | cons h =>
      obtain ⟨e₁, e₂, rfl, h₁, h₂⟩ := ih h
      exact ⟨w :: e₁, e₂, rfl, .cons h₁, h₂⟩

theorem pieces_refl (events : List Written) : Pieces events events := by
  induction events with
  | nil => exact .nil
  | cons w events ih => exact .cons ih

theorem pieces_text {s : List UInt8} {r e : List Written} (h : Pieces (.text s :: r) e) :
    ∃ (pieces : List (List UInt8)) (r' : List Written), pieces.flatten = s ∧ e = pieces.map Written.text ++ r' ∧ Pieces r r' := by
  cases h with
  | text h => exact ⟨_, _, rfl, rfl, h⟩
  | cons h => exact ⟨[s], _, by simp, rfl, h⟩

theorem pieces_cons {w : Written} {r e : List Written} (hw : ∀ s, w ≠ .text s)
    (h : Pieces (w :: r) e) : ∃ r', e = w :: r' ∧ Pieces r r' := by
  cases h with
  | text h => exact absurd rfl (hw _)
  | cons h => exact ⟨_, rfl, h⟩

namespace MooMarkupDoc

variable {M : KeyedQueue.Allocator} {d d₁ d₂ : MooMarkupDoc} {t g g₁ g₂ : Forest ℕ} {current : ℕ}
  {l l₁ l₂ : Forest MooMarkupNode}

/-- The nodes `l` have been put below the current one, at the addresses of `g`. -/
structure Parsed (d d' : MooMarkupDoc) (t : Forest ℕ) (current : ℕ) (g : Forest ℕ)
    (l : Forest MooMarkupNode) : Prop where
  holds : d'.Holds (t.addLast current g)
  fresh : ∀ x ∈ g.nodes, x ∉ t.nodes
  data : g.map d'.data = l
  old : ∀ x ∈ t.nodes, d'.data x = d.data x

theorem Parsed.trans (hh : d.Holds t) (hc : current ∈ t.nodes) (h₁ : Parsed d d₁ t current g₁ l₁)
    (h₂ : Parsed d₁ d₂ (t.addLast current g₁) current g₂ l₂) :
    Parsed d d₂ t current (g₁.append g₂) (l₁.append l₂) := by
  have hmem : ∀ x, x ∈ (t.addLast current g₁).nodes ↔ x ∈ g₁.nodes ∨ x ∈ t.nodes := fun x => by
    rw [(Forest.perm_addLast hh.nodup hc).mem_iff, List.mem_append]
  refine ⟨?_, fun x hx => ?_, ?_, fun x hx => ?_⟩
  · rw [← Forest.addLast_addLast hh.nodup fun h => h₁.fresh _ h hc]
    exact h₂.holds
  · rw [Forest.nodes_append, List.mem_append] at hx
    obtain hx | hx := hx
    · exact h₁.fresh x hx
    · exact fun h => h₂.fresh x hx ((hmem x).2 (.inr h))
  · rw [Forest.map_append, h₂.data,
      Forest.map_congr fun x hx => h₂.old x ((hmem x).2 (.inl hx)), h₁.data]
  · rw [h₂.old x ((hmem x).2 (.inr hx)), h₁.old x hx]

theorem parsed_addNode (hh : d.Holds t) (hc : current ∈ t.nodes) (node : MooMarkupNode) :
    Parsed d (d.addNode M current node).2 t current
      (.node (d.addNode M current node).1 .nil .nil) (.node node .nil .nil) ∧
    ((d.addNode M current node).2.links current).last = some (d.addNode M current node).1 ∧
    ((d.addNode M current node).2.links (d.addNode M current node).1).last = none := by
  obtain ⟨hnew, hh'⟩ := hh.addNode (M := M) hc
  have hne : current ≠ M.get d.live.length d.live := fun h => hnew (by
    simpa [MooMarkupDoc.addNode, ← h] using hc)
  refine ⟨⟨hh', by simpa using hnew, ?_, fun x hx => ?_⟩, ?_, ?_⟩
  · simp [Forest.map, MooMarkupDoc.addNode]
  · exact update_of_ne (fun h => hnew (by rwa [h] at hx)) _ _
  · simp [MooMarkupDoc.addNode, Siblings.pushLast, hne]
  · simp [MooMarkupDoc.addNode, Siblings.pushLast]

/-- A text that is the last child goes on with more pieces. -/
theorem parse_morePieces {x : ℕ} (pieces : List (List UInt8)) {acc : List UInt8}
    (hlast : (d.links current).last = some x) (hx : d.data x = textData .text acc) :
    ∃ d', (pieces.map Written.text).foldlM (parseEvent M) (d, current) = some (d', current) ∧
      d'.doc = d.doc ∧ d'.links = d.links ∧ d'.live = d.live ∧
      d'.data = update d.data x (textData .text (acc ++ pieces.flatten)) := by
  induction pieces generalizing d acc with
  | nil => exact ⟨d, rfl, rfl, rfl, rfl, by simp [← hx]⟩
  | cons s pieces ih =>
    have hlastIs : d.lastIs .text current = some x := by simp [lastIs, hlast, hx, textData]
    have hstep : parseEvent M (d, current) (.text s) = some (d.textNodeAddText x s, current) := by
      simp [parseEvent, addText, hlastIs]
    rw [List.map_cons, List.foldlM_cons, hstep]
    have hlinks : (d.textNodeAddText x s).links = d.links ∧ (d.textNodeAddText x s).live = d.live ∧
        (d.textNodeAddText x s).doc = d.doc ∧
        (d.textNodeAddText x s).data = update d.data x (textData .text (acc ++ s)) := by
      unfold textNodeAddText
      split
      case isTrue h => simp [h, ← hx]
      case isFalse h => simp [hx, textData]
    obtain ⟨hl, hlive, hdoc, hdata⟩ := hlinks
    obtain ⟨d', hd', hdoc', hl', hlive', hdata'⟩ := ih (d := d.textNodeAddText x s)
      (by rw [hl, hlast]) (by rw [hdata, update_self])
    refine ⟨d', hd', hdoc'.trans hdoc, hl'.trans hl, hlive'.trans hlive, ?_⟩
    rw [hdata', hdata, update_idem, List.flatten_cons, List.append_assoc]

/-- A text in pieces is one node. -/
theorem parse_text (hh : d.Holds t) (hc : current ∈ t.nodes) (hlast : d.lastIs .text current = none)
    {pieces : List (List UInt8)} (hp : pieces.flatten ≠ []) :
    ∃ d' g, (pieces.map Written.text).foldlM (parseEvent M) (d, current) = some (d', current) ∧
      Parsed d d' t current g (.node (textData .text pieces.flatten) .nil .nil) := by
  cases pieces with
  | nil => simp at hp
  | cons s pieces =>
    obtain ⟨hparsed, hl, -⟩ := parsed_addNode (M := M) hh hc (textData .text s)
    set x := (d.addNode M current (textData .text s)).1 with hx
    set d₁ := (d.addNode M current (textData .text s)).2 with hd₁
    have hstep : parseEvent M (d, current) (.text s) = some (d₁, current) := by
      simp [parseEvent, addText, hlast, textNodeNew, hd₁]
    have hdata₁ : d₁.data x = textData .text s := by simp [hd₁, hx, MooMarkupDoc.addNode]
    obtain ⟨d', hd', hdoc, hlinks, hlive, hdata⟩ := parse_morePieces (M := M) pieces hl hdata₁
    have hold : ∀ y, y ≠ x → d'.data y = d₁.data y := fun y hy => by rw [hdata, update_of_ne hy]
    refine ⟨d', .node x .nil .nil, ?_, ?_, hparsed.fresh, ?_, fun y hy => ?_⟩
    · rw [List.map_cons, List.foldlM_cons, hstep]
      exact hd'
    · obtain ⟨hroot, hlinked, hnodup, hlive₁⟩ := hparsed.holds
      exact ⟨hdoc ▸ hroot, hlinks ▸ hlinked, hnodup, hlive ▸ hlive₁⟩
    · simp [Forest.map, hdata]
    · have hyx : y ≠ x := fun h => hparsed.fresh x (by simp) (h ▸ hy)
      rw [hold y hyx, hparsed.old y hy]

/-- An element ends, and gets its texts as content. -/
theorem parse_stop {x : ℕ} (hh : d.Holds t) (hc : current ∈ t.nodes) (hx : x ∉ t.nodes)
    {m : MooMarkupNode} (hm : m.type = .element)
    (h : Parsed d d₁ t current (.node x g .nil) (.node m l .nil)) :
    ∃ d', parseEvent M (d₁, x) .stop = some (d', current) ∧
      Parsed d d' t current (.node x g .nil) (.node { m with content := textContent l } l .nil) ∧
      d'.lastIs .text current = none := by
  have hin : ∀ y, y ∈ (t.addLast current (.node x g .nil)).nodes ↔
      y ∈ (Forest.node x g .nil).nodes ∨ y ∈ t.nodes := fun y => by
    rw [(Forest.perm_addLast hh.nodup hc).mem_iff, List.mem_append]
  have hxin : x ∈ (t.addLast current (.node x g .nil)).nodes := (hin x).2 (.inl (by simp))
  have hcin : current ∈ (t.addLast current (.node x g .nil)).nodes := (hin current).2 (.inr hc)
  have hdata := h.data
  simp only [Forest.map, Forest.node.injEq, and_true] at hdata
  obtain ⟨hdx, hdg⟩ := hdata
  have hkids : (t.addLast current (.node x g .nil)).kidsOf x = g := by
    rw [Forest.kidsOf_addLast_new hh.nodup hc hx]
    simp [Forest.kidsOf]
  have hxg : x ∉ g.nodes := by
    have hnd := (Forest.perm_addLast (g := .node x g .nil) hh.nodup hc).nodup_iff.1 h.holds.nodup
    simp only [Forest.nodes_node, List.cons_append, List.nodup_cons, List.mem_append, not_or] at hnd
    exact hnd.1.1.1
  have hcontent : d₁.collectTextContent x = d₁.assignContent x (textContent l) := by
    rw [collectTextContent, h.holds.childrenOf_eq hxin, hkids, textContent, ← hdg, tops_map]
    simp only [List.filter_map, List.map_eq_nil_iff, List.flatMap_map]
    rfl
  obtain ⟨hk, -, hlastc, -⟩ := h.holds.linked.kidsOf h.holds.nodup hcin
  rw [Forest.kidsOf_addLast_self hh.nodup hc] at hk hlastc
  have hpar : (d₁.links x).parent = some current := hk.parent_of_top (by simp)
  have hlast : (d₁.links current).last = some x := by
    rw [hlastc]
    generalize t.kidsOf current = f
    generalize (none : Option ℕ) = q
    induction f generalizing q with
    | nil => rfl
    | node y k r _ ihr => exact ihr _
  have hother : ∀ y, y ≠ x → (d₁.assignContent x (textContent l)).data y = d₁.data y := fun y hy => by
    simp [assignContent, hy]
  refine ⟨d₁.assignContent x (textContent l), ?_, ⟨?_, h.fresh, ?_, fun y hy => ?_⟩, ?_⟩
  · simp only [parseEvent, isElement, hdx, hm, decide_true, if_true, hcontent]
    have hpar' : ((d₁.assignContent x (textContent l)).links x).parent = some current := hpar
    rw [hpar']
    rfl
  · exact ⟨h.holds.root, h.holds.linked, h.holds.nodup, h.holds.live⟩
  · simp only [Forest.map, Forest.node.injEq, and_true]
    refine ⟨by simp [assignContent, hdx], ?_⟩
    rw [Forest.map_congr fun y hy => hother y fun he => hxg (he ▸ hy), hdg]
  · rw [hother y fun he => hx (he ▸ hy), h.old y hy]
  · simp [lastIs, hlast, assignContent, hdx, hm]

/-- The handlers put the nodes of markup below the current one. -/
theorem parse_events {m : Markup} (hm : TextsApart m) {events : List Written}
    (he : Pieces (parserEvents m) events) (hh : d.Holds t) (hc : current ∈ t.nodes)
    (hlast : ∀ s next, m = .text s next → d.lastIs .text current = none) :
    ∃ d' g, events.foldlM (parseEvent M) (d, current) = some (d', current) ∧
      Parsed d d' t current g (domOf m) := by
  induction m generalizing d t current events with
  | nil =>
    cases he
    exact ⟨d, .nil, rfl, by rwa [Forest.addLast_nil], by simp, rfl, fun _ _ => rfl⟩
  | element name attrs children next ihc ihn =>
    rw [parserEvents] at he
    obtain ⟨e, rfl, he'⟩ := pieces_cons (by simp) he
    obtain ⟨ec, e', rfl, hec, he''⟩ := pieces_append he'
    obtain ⟨en, rfl, hen⟩ := pieces_cons (by simp) he''
    obtain ⟨h₁, -, hl₁⟩ := parsed_addNode (M := M) hh hc (elementData name attrs)
    set x := (d.addNode M current (elementData name attrs)).1 with hx
    set d₁ := (d.addNode M current (elementData name attrs)).2 with hd₁
    have hxt : x ∉ t.nodes := h₁.fresh x (by simp)
    have hx₁ : x ∈ (t.addLast current (.node x .nil .nil)).nodes := by
      simp [(Forest.perm_addLast hh.nodup hc).mem_iff]
    -- the children
    obtain ⟨d₂, gc, hrun₂, h₂⟩ := ihc hm.1 hec h₁.holds hx₁ fun _ _ _ => by simp [lastIs, hl₁]
    have h₁₂ : Parsed d d₂ t current (.node x gc .nil)
        (.node (elementData name attrs) (domOf children) .nil) := by
      have hdx : d₂.data x = elementData name attrs := by
        rw [h₂.old x hx₁]
        simpa [Forest.map] using h₁.data
      refine ⟨?_, fun y hy => ?_, ?_, fun y hy => ?_⟩
      · rw [← Forest.addLast_into hh.nodup hc hxt]
        exact h₂.holds
      · simp only [Forest.nodes_node, Forest.nodes_nil, List.append_nil, List.mem_cons] at hy
        obtain rfl | hy := hy
        · exact hxt
        · exact fun h => h₂.fresh y hy (by
            simp [(Forest.perm_addLast hh.nodup hc).mem_iff, h])
      · simp [Forest.map, hdx, h₂.data]
      · have hy₁ : y ∈ (t.addLast current (.node x .nil .nil)).nodes := by
          simp [(Forest.perm_addLast hh.nodup hc).mem_iff, hy]
        rw [h₂.old y hy₁, h₁.old y hy]
    -- the end of the element
    obtain ⟨d₃, hrun₃, h₃, hl₃⟩ := parse_stop (M := M) hh hc hxt rfl h₁₂
    have hc₃ : current ∈ (t.addLast current (.node x gc .nil)).nodes := by
      simp [(Forest.perm_addLast hh.nodup hc).mem_iff, hc]
    -- what comes after it
    obtain ⟨d₄, gn, hrun₄, h₄⟩ := ihn hm.2 hen h₃.holds hc₃ fun _ _ _ => hl₃
    refine ⟨d₄, _, ?_, h₃.trans hh hc h₄⟩
    have hstart : parseEvent M (d, current) (.start name attrs) = some (d₁, x) := rfl
    rw [List.foldlM_cons, hstart]
    simp only [Option.bind_eq_bind, Option.bind_some, List.foldlM_append, hrun₂, List.foldlM_cons, hrun₃]
    exact hrun₄
  | text s next ihn =>
    obtain ⟨hs, happart, hnext⟩ := hm
    obtain ⟨pieces, en, rfl, rfl, hen⟩ := pieces_text he
    obtain ⟨d₁, g, hrun₁, h₁⟩ := parse_text (M := M) hh hc (hlast _ _ rfl) hs
    have hc₁ : current ∈ (t.addLast current g).nodes := by
      simp [(Forest.perm_addLast hh.nodup hc).mem_iff, hc]
    obtain ⟨d₂, gn, hrun₂, h₂⟩ := ihn hnext hen h₁.holds hc₁ fun s' next' h =>
      absurd h (happart s' next')
    refine ⟨d₂, _, ?_, h₁.trans hh hc h₂⟩
    simp only [List.foldlM_append, hrun₁, Option.bind_eq_bind, Option.bind_some]
    exact hrun₂

end MooMarkupDoc

/-! ## Elements -/

/-- What is seen of an element. -/
structure ElementView where
  name : String
  attrs : List (String × List UInt8)
  content : Option (List UInt8)
deriving DecidableEq

/-- The elements of siblings; `content` is the content of one, from its node and its children. -/
def outlineWith (content : MooMarkupNode → Forest MooMarkupNode → Option (List UInt8)) :
    Forest MooMarkupNode → Forest ElementView
  | .nil => .nil
  | .node m k r =>
    if m.type = .element then
      .node ⟨m.name, m.attrs, content m k⟩ (outlineWith content k) (outlineWith content r)
    else outlineWith content r

/-- The elements with their contents. -/
def outline : Forest MooMarkupNode → Forest ElementView := outlineWith fun m _ => m.content

/-- The elements, with the contents of those that have no elements in them. -/
def outlineLeaves : Forest MooMarkupNode → Forest ElementView :=
  outlineWith fun m k => if hasElement k then none else m.content

/-- The elements, with the contents that come again: texts that are not empty. -/
def outlineTexts : Forest MooMarkupNode → Forest ElementView :=
  outlineWith fun m k =>
    if hasElement k ∨ k = .nil ∨ m.content.getD [] = [] then none else some (m.content.getD [])

/-- White space -/
def IsBlank (s : List UInt8) : Prop := ∀ b ∈ s, b = 10 ∨ b = 32

/-- The contents of elements with elements in them are white space. -/
def BlankDirs : Forest MooMarkupNode → Prop
  | .nil => True
  | .node m k r => (hasElement k → ∃ s, m.content = some s ∧ IsBlank s) ∧ BlankDirs k ∧ BlankDirs r

theorem domOf_append (m n : Markup) : domOf (m.append n) = (domOf m).append (domOf n) := by
  induction m with
  | nil => rfl
  | element name attrs children next _ ih => simp [Markup.append, domOf, ih]
  | text s next ih => simp [Markup.append, domOf, ih]

theorem outlineWith_append {content : MooMarkupNode → Forest MooMarkupNode → Option (List UInt8)}
    (f g : Forest MooMarkupNode) :
    outlineWith content (f.append g) = (outlineWith content f).append (outlineWith content g) := by
  induction f with
  | nil => rfl
  | node m k r _ ihr =>
    rw [Forest.node_append, outlineWith, outlineWith]
    split <;> simp [ihr]

theorem hasElement_append (f g : Forest MooMarkupNode) :
    hasElement (f.append g) = (hasElement f || hasElement g) := by
  simp [hasElement]

theorem blankDirs_append {f g : Forest MooMarkupNode} (hf : BlankDirs f) (hg : BlankDirs g) :
    BlankDirs (f.append g) := by
  induction f with
  | nil => exact hg
  | node m k r _ ihr => exact ⟨hf.1, hf.2.1, ihr hf.2.2⟩

section spread

variable {size indent : ℕ} {m : MooMarkupNode} {f k : Forest MooMarkupNode}

theorem hasElement_spread : hasElement (domOf (spread size indent f)) = hasElement f := by
  induction f with
  | nil => rfl
  | node m k r _ ihr =>
    rw [spread]
    split
    case isTrue h => simp [domOf, hasElement, elementData, h]
    case isFalse h => 
      rw [ihr]
      simp [hasElement, h]

theorem hasElement_inside :
    hasElement (domOf (inside m k (spread size (deeper size indent) k) indent)) = hasElement k := by
  unfold inside
  split
  case isTrue h => simp [domOf_append, hasElement_append, hasElement_spread, h]
  case isFalse h => split <;> simp_all [domOf, hasElement, textData]

theorem outlineWith_of_leaf {content : MooMarkupNode → Forest MooMarkupNode → Option (List UInt8)}
    (h : hasElement f = false) : outlineWith content f = .nil := by
  induction f with
  | nil => rfl
  | node m k r _ ihr =>
    simp only [hasElement, Forest.tops_node, List.any_cons, Bool.or_eq_false_iff,
      decide_eq_false_iff_not] at h ihr
    rw [outlineWith, if_neg h.1, ihr h.2]

theorem isBlank_space : IsBlank (space indent) := by
  intro b hb
  simp only [space, newline, blanks, List.mem_append, List.mem_singleton] at hb
  rcases hb with hb | hb
  · exact .inl hb
  · exact .inr (List.eq_of_mem_replicate hb)

theorem isBlank_spread : ∀ y ∈ (domOf (spread size indent f)).tops, y.type = .text → IsBlank y.text := by
  induction f with
  | nil => simp [spread, domOf]
  | node m k r _ ihr =>
    rw [spread]
    split
    · intro y hy htext
      simp only [domOf, Forest.tops_node, List.mem_cons] at hy
      rcases hy with rfl | rfl | hy
      · exact isBlank_space
      · simp [elementData] at htext
      · exact ihr y hy htext
    · exact ihr

/-- The white space in an element with elements is its content. -/
theorem textContent_dir (hk : hasElement k) :
    ∃ s, textContent (domOf (inside m k (spread size (deeper size indent) k) indent)) = some s ∧
      IsBlank s := by
  simp only [inside, hk, if_true, domOf_append, domOf, textContent, Forest.tops_append,
    Forest.tops_node, Forest.tops_nil, List.filter_append]
  rw [if_neg (by simp [textData])]
  refine ⟨_, rfl, fun b hb => ?_⟩
  simp only [List.mem_flatMap, List.mem_append, List.mem_filter, decide_eq_true_eq] at hb
  obtain ⟨y, ⟨hy, htext⟩ | ⟨hy, -⟩, hb⟩ := hb
  · exact isBlank_spread y hy htext b hb
  · obtain rfl := List.mem_singleton.1 hy
    exact isBlank_space b hb

theorem textContent_leaf (hk : hasElement k = false) :
    textContent (domOf (inside m k (spread size (deeper size indent) k) indent)) =
      if k = .nil ∨ m.content.getD [] = [] then none else some (m.content.getD []) := by
  simp only [inside, hk, Bool.false_eq_true, if_false]
  split <;> simp [domOf, textContent, textData]

/-- One element that has been written, with those after it. -/
theorem outline_element (hm : m.type = .element) {next : Markup} {r : Forest MooMarkupNode}
    (hk : outlineLeaves (domOf (spread size (deeper size indent) k)) = outlineTexts k)
    (hr : outlineLeaves (domOf next) = outlineTexts r) :
    outlineLeaves (domOf (.element m.name m.attrs
      (inside m k (spread size (deeper size indent) k) indent) next)) =
      outlineTexts (.node m k r) := by
  rw [outlineLeaves, outlineTexts] at hk hr ⊢
  rw [domOf, outlineWith, outlineWith, if_pos (by rfl), if_pos hm, hr, hasElement_inside]
  cases hdir : hasElement k with
  | true =>
    congr 1
    rw [← hk, inside, if_pos hdir, domOf_append, outlineWith_append]
    simp [domOf, outlineWith, textData]
  | false =>
    rw [outlineWith_of_leaf hdir, outlineWith_of_leaf (hasElement_inside.trans hdir)]
    simp [elementData, textContent_leaf hdir]

theorem outlineLeaves_spread : outlineLeaves (domOf (spread size indent f)) = outlineTexts f := by
  induction f generalizing indent with
  | nil => rfl
  | node m k r ihk ihr =>
    rw [spread]
    split
    case isTrue h => exact outline_element h ihk ihr
    case isFalse h =>
      rw [ihr, outlineTexts, outlineWith, if_neg h]

theorem outlineLeaves_spreadTop : outlineLeaves (domOf (spreadTop size f)) = outlineTexts f := by
  induction f with
  | nil => rfl
  | node m k r _ ihr =>
    rw [spreadTop]
    split
    case isTrue h => exact outline_element h outlineLeaves_spread ihr
    case isFalse h =>
      rw [ihr, outlineTexts, outlineWith, if_neg h]

theorem blankDirs_inside (hk : BlankDirs (domOf (spread size (deeper size indent) k))) :
    BlankDirs (domOf (inside m k (spread size (deeper size indent) k) indent)) := by
  unfold inside
  split
  · rw [domOf_append]
    exact blankDirs_append hk ⟨by simp [hasElement], trivial, trivial⟩
  · split
    · trivial
    · exact ⟨by simp [hasElement], trivial, trivial⟩

theorem blankDirs_element {next : Markup}
    (hk : BlankDirs (domOf (spread size (deeper size indent) k))) (hr : BlankDirs (domOf next)) :
    BlankDirs (domOf (.element m.name m.attrs
      (inside m k (spread size (deeper size indent) k) indent) next)) := by
  refine ⟨fun h => ?_, blankDirs_inside hk, hr⟩
  rw [hasElement_inside] at h
  exact textContent_dir h

theorem blankDirs_spread : BlankDirs (domOf (spread size indent f)) := by
  induction f generalizing indent with
  | nil => trivial
  | node m k r ihk ihr =>
    rw [spread]
    split
    · exact ⟨by simp [hasElement], trivial, blankDirs_element ihk ihr⟩
    · exact ihr

theorem blankDirs_spreadTop : BlankDirs (domOf (spreadTop size f)) := by
  induction f with
  | nil => trivial
  | node m k r _ ihr =>
    rw [spreadTop]
    split
    · exact blankDirs_element blankDirs_spread ihr
    · exact ihr

theorem textsApart_inside (hk : ∀ {tail}, TextsApart tail →
    TextsApart ((spread size (deeper size indent) k).append tail)) :
    TextsApart (inside m k (spread size (deeper size indent) k) indent) := by
  unfold inside
  split
  · exact hk ⟨by simp [space, newline], by simp, trivial⟩
  · split
    · trivial
    case isFalse h => exact ⟨fun hc => h (.inr hc), by simp, trivial⟩

theorem textsApart_spread {tail : Markup} (ht : TextsApart tail) :
    TextsApart ((spread size indent f).append tail) := by
  induction f generalizing indent tail with
  | nil => exact ht
  | node m k r ihk ihr =>
    rw [spread]
    split
    · refine ⟨by simp [space, newline], by simp [Markup.append], ?_, ihr ht⟩
      exact textsApart_inside fun ht => ihk ht
    · exact ihr ht

theorem textsApart_spreadTop : TextsApart (spreadTop size f) := by
  induction f with
  | nil => trivial
  | node m k r _ ihr =>
    rw [spreadTop]
    split
    · exact ⟨textsApart_inside textsApart_spread, ihr⟩
    · exact ihr

end spread

/-- Every element has a text that is not empty, or an element in it. -/
def Filled : Forest MooMarkupNode → Prop
  | .nil => True
  | .node m k r =>
    (m.type = .element → hasElement k ∨ ∃ y ∈ k.tops, y.type = .text ∧ y.text ≠ []) ∧ Filled k ∧
      Filled r

namespace MooMarkupDoc

variable {M : KeyedQueue.Allocator} {d : MooMarkupDoc} {t k : Forest ℕ}

/-- Where elements are filled, their contents come again. -/
theorem outlineTexts_eq {data : ℕ → MooMarkupNode} (hm : Matches data k) (hf : Filled (k.map data)) :
    outlineTexts (k.map data) = outlineLeaves (k.map data) := by
  induction k with
  | nil => rfl
  | node x k r ihk ihr =>
    have hk := ihk hm.2.1 hf.2.1
    have hr := ihr hm.2.2 hf.2.2
    rw [outlineTexts, outlineLeaves] at hk hr ⊢
    simp only [Forest.map, outlineWith, hk, hr]
    split
    case isTrue helm =>
      congr 2
      split
      case isTrue h =>
        obtain h' | ⟨y, hy, htype, htext⟩ := hf.1 helm
        · simp [h']
        · rw [tops_map, List.mem_map] at hy
          obtain ⟨z, hz, rfl⟩ := hy
          have hcontent := hm.1 z hz htype
          have hnil : k.map data ≠ .nil := fun h => by
            cases k with
            | nil => simp at hz
            | node _ _ _ => simp [Forest.map] at h
          simp [hcontent, htext, hnil] at h
          simp [h]
      case isFalse h =>
        simp only [not_or] at h
        cases hc : (data x).content with
        | none => simp [hc] at h
        | some c => simp [h.1]
    case isFalse h => rfl

/-- The comment at the beginning is a node of the document. -/
theorem parse_header {d₀ : MooMarkupDoc} (hd₀ : d₀ = { new M "" with modified := true }) :
    ∃ d₁ c, [Written.passthrough declaration, .passthrough modeComment].foldlM (parseEvent M)
        (d₀, d₀.doc) = some (d₁, d₀.doc) ∧
      Parsed d₀ d₁ (.node d₀.doc .nil .nil) d₀.doc (.node c .nil .nil)
        (.node (textData .comment (declaration ++ modeComment)) .nil .nil) ∧
      d₁.lastIs .text d₀.doc = none := by
  have hh₀ : d₀.Holds (.node d₀.doc .nil .nil) :=
    hd₀ ▸ ⟨⟨.nil, rfl⟩, ⟨rfl, trivial, trivial⟩, by simp, fun x => by simp [new]⟩
  have hlast₀ : d₀.lastIs .comment d₀.doc = none := by simp [hd₀, lastIs, new]
  have hdoc₀ : d₀.doc ∈ (Forest.node d₀.doc .nil .nil).nodes := by simp
  obtain ⟨hparsed, hlast, -⟩ := parsed_addNode (M := M) hh₀ hdoc₀ (textData .comment declaration)
  set c := (d₀.addNode M d₀.doc (textData .comment declaration)).1 with hc
  set d₁ := (d₀.addNode M d₀.doc (textData .comment declaration)).2 with hd₁
  have hdata : d₁.data c = textData .comment declaration := by simp [hd₁, hc, MooMarkupDoc.addNode]
  have hlast₁ : d₁.lastIs .comment d₀.doc = some c := by simp [lastIs, hlast, hdata, textData]
  have hdecl : invalidComment declaration = false := by decide +kernel
  have hmode : invalidComment modeComment = false ∧ modeComment ≠ [] := by decide +kernel
  have hcdoc : c ∉ (Forest.node d₀.doc .nil .nil).nodes := hparsed.fresh c (by simp)
  refine ⟨d₁.textNodeAddText c modeComment, c, ?_, ⟨?_, hparsed.fresh, ?_, fun y hy => ?_⟩, ?_⟩
  · simp [parseEvent, hdecl, hmode.1, addText, hlast₀, textNodeNew, ← hd₁, hlast₁]
  · obtain ⟨hroot, hlinked, hnodup, hlive⟩ := hparsed.holds
    rw [textNodeAddText, if_neg hmode.2]
    exact ⟨hroot, hlinked, hnodup, hlive⟩
  · simp [Forest.map, textNodeAddText, hmode.2, hdata, textData]
  · have hyc : y ≠ c := fun h => hcdoc (h ▸ hy)
    rw [← hparsed.old y hy]
    simp [textNodeAddText, hmode.2, hyc]
  · simp [lastIs, textNodeAddText, hmode.2, hlast, hdata, textData]

/-- A document that is written and parsed has the elements again, with their properties, and with
their contents where they are texts that are not empty. -/
theorem Holds.round_trip (hh : d.Holds t) {size : ℕ} {events : List Written}
    (he : Reported (d.writePretty size) events) :
    ∃ d', parse M events = some d' ∧ outlineLeaves d'.dom = outlineTexts d.dom ∧
      BlankDirs d'.dom := by
  rw [Reported, report_writePretty hh] at he
  obtain ⟨e₁, rfl, he₁⟩ := pieces_cons (by simp) he
  obtain ⟨e₂, rfl, he₂⟩ := pieces_cons (by simp) he₁
  set d₀ : MooMarkupDoc := { new M "" with modified := true } with hd₀
  obtain ⟨d₁, c, hrun₁, h₁, hlast⟩ := parse_header (M := M) hd₀
  have hdoc₁ : d₀.doc ∈ ((Forest.node d₀.doc .nil .nil).addLast d₀.doc (.node c .nil .nil)).nodes := by
    simp [Forest.addLast]
  obtain ⟨d₂, g, hrun₂, h₂⟩ := parse_events (M := M) textsApart_spreadTop he₂ h₁.holds hdoc₁
    fun _ _ _ => hlast
  have hall := h₁.trans (hd₀ ▸ ⟨⟨.nil, rfl⟩, ⟨rfl, trivial, trivial⟩, by simp, fun x => by simp [new]⟩)
    (by simp) h₂
  have htree : (Forest.node d₀.doc .nil .nil).addLast d₀.doc ((Forest.node c .nil .nil).append g) =
      .node d₀.doc (.node c .nil g) .nil := by simp [Forest.addLast]
  have hh₂ := hall.holds
  rw [htree] at hh₂
  have hdoc : d₂.doc = d₀.doc := by simpa using hh₂.tops_eq.symm
  have hdom : d₂.dom = .node (textData .comment (declaration ++ modeComment)) .nil
      (domOf (spreadTop size d.dom)) := by
    rw [hh₂.dom_eq, hdoc]
    simpa [Forest.kidsOf] using hall.data
  refine ⟨d₂, ?_, ?_, ?_⟩
  · have hsplit : Written.passthrough declaration :: .passthrough modeComment :: e₂ =
        [Written.passthrough declaration, .passthrough modeComment] ++ e₂ := rfl
    rw [parse, hsplit, List.foldlM_append, hrun₁]
    simp only [Option.bind_eq_bind, Option.bind_some, hrun₂, Option.map_some]
  · rw [hdom, ← @outlineLeaves_spreadTop size]
    simp [outlineLeaves, outlineWith, textData]
  · rw [hdom]
    exact ⟨by simp [hasElement], trivial, blankDirs_spreadTop⟩

/-- In every document that calls make the nodes are well linked, and properties are there once. When
its elements are filled, it is written and parsed with the same elements, properties, and texts, and
what else is there as content of an element is white space. -/
theorem documents_right {name : String} (h : Reached M name d) :
    Siblings.WellLinked d.links d.doc (· ∈ d.live) ∧
    (∀ x ∈ d.live, ((d.data x).attrs.map Prod.fst).Nodup) ∧
    (Filled d.dom → ∀ (M' : KeyedQueue.Allocator) (size : ℕ) (events : List Written),
      Reported (d.writePretty size) events →
      ∃ d', parse M' events = some d' ∧ outlineLeaves d'.dom = outlineLeaves d.dom ∧
        BlankDirs d'.dom) := by
  obtain ⟨t, hg⟩ := h.good
  obtain ⟨hholds, -, hattrs, htexts⟩ := hg
  have hlive : (fun x => x ∈ d.live) = fun x => x ∈ t.nodes := funext fun x => propext (hholds.live x)
  refine ⟨?_, fun x hx => hattrs x ((hholds.live x).1 hx), fun hf M' size events he => ?_⟩
  · rw [hlive]
    obtain ⟨k, rfl⟩ := hholds.root
    exact hholds.linked.wellLinked hholds.nodup
  · obtain ⟨d', hd', hout, hblank⟩ := hholds.round_trip (M := M') he
    have hmatches : Matches d.data (t.kidsOf d.doc) := by
      obtain ⟨k, rfl⟩ := hholds.root
      simpa [Forest.kidsOf] using htexts.2.1
    refine ⟨d', hd', ?_, hblank⟩
    rw [hholds.dom_eq] at hf ⊢
    rw [hout, hholds.dom_eq, outlineTexts_eq hmatches hf]

/-- An element with a text in it, in another one. -/
def nested : MooMarkupDoc :=
  let root := (new .above "").createRootElement .above "r"
  (root.2.createTextElement .above root.1 "a" (some [120])).2

theorem nested_dom : nested.dom = .node (elementData "r" [])
    (.node { elementData "a" [] with content := some [120] } (.node (textData .text [120]) .nil .nil)
      .nil) .nil := by
  decide

theorem reached_nested : Reached .above "" nested := by
  have hstart : Reached .above "" (new .above "") := Reached.new
  have hroot := hstart.step (c := .createRootElement "r") nofun
  refine hroot.step (c := .createTextElement ((new .above "").createRootElement .above "r").1 "a"
    (some [120])) fun x hx => ?_
  obtain rfl : _ = x := by simpa [Call.node] using hx
  decide

theorem filled_nested : Filled nested.dom := by
  simp [nested_dom, Filled, hasElement, elementData, textData]

theorem documents_right_nested :
    ∃ d', parse .above (report 0 [] (nested.writePretty 2)) = some d' ∧
      outlineLeaves d'.dom = outlineLeaves nested.dom ∧ BlankDirs d'.dom :=
  (documents_right reached_nested).2.2 filled_nested .above 2 _ (pieces_refl _)

/-- The outer element has no content, and the white space around the inner one is its content when it
comes again. -/
theorem documents_wrong : ∃ d d' events, Reached .above "" d ∧ Filled d.dom ∧
    Reported (d.writePretty 2) events ∧ parse .above events = some d' ∧
    outline d'.dom ≠ outline d.dom := by
  have hout : (parse .above (report 0 [] (nested.writePretty 2))).map (fun d' => outline d'.dom) ≠
      some (outline nested.dom) := by
    decide +kernel
  obtain ⟨d', hd', -⟩ := reached_nested.good.elim fun t hg =>
    hg.holds.round_trip (M := .above) (pieces_refl _)
  rw [hd'] at hout
  exact ⟨nested, d', _, reached_nested, filled_nested, pieces_refl _, hd', fun h => hout (by simp [h])⟩

end MooMarkupDoc

end Medit
