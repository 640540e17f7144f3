import Medit.Fold.Steps

/-!
# Which lines are hidden

The tag is on the lines that a collapsed fold hides, and each operation keeps it so.
-/

namespace Medit

open LinkedForest LinkedForest.Forest

/-- The forest below a node; in a nested forest the others are apart from the node or around it. -/
theorem exists_below {ι : Type*} (start stop : ι → ℤ) {h : Heap ι} {p q : Option ι} {f : Forest ι}
    {x : ι} (hl : Linked h p q f) (hx : x ∈ f.nodes) : ∃ k, Linked h (some x) none k ∧
      (h.cell x).children = k.head ∧ k.nodes.Sublist f.nodes ∧
      ∀ {lo hi}, Nested start stop lo hi f → Nested start stop (start x + 1) (stop x) k ∧
        ∀ y ∈ f.nodes, y = x ∨ y ∈ k.nodes ∨ stop y < start x ∨ stop x < start y ∨
          start y < start x ∧ stop x ≤ stop y := by
  induction f generalizing p q with
  | nil => simp at hx
  | node z k r ihk ihr =>
    obtain ⟨hz, hlk, hlr⟩ := hl
    simp only [nodes_node, List.mem_cons, List.mem_append] at hx ⊢
    rcases hx with rfl | hx | hx
    · refine ⟨k, hlk, by rw [hz], (List.sublist_append_left _ _).cons _, fun hn => ⟨hn.2.2.2.1, ?_⟩⟩
      rintro y (rfl | hy | hy)
      · exact .inl rfl
      · exact .inr (.inl hy)
      · have := hn.2.2.2.2.bounds hy
        omega
    · obtain ⟨k', h1, h2, h3, h4⟩ := ihk hlk hx
      refine ⟨k', h1, h2, (h3.trans (List.sublist_append_left _ _)).cons _, fun hn => ?_⟩
      obtain ⟨hlo, hlt, hhi, hk, hr⟩ := hn
      have hxk := hk.bounds hx
      refine ⟨(h4 hk).1, ?_⟩
      rintro y (rfl | hy | hy)
      · omega
      · exact (h4 hk).2 y hy
      · have := hr.bounds hy
        omega
    · obtain ⟨k', h1, h2, h3, h4⟩ := ihr hlr hx
      refine ⟨k', h1, h2, (h3.trans (List.sublist_append_right _ _)).cons _, fun hn => ?_⟩
      obtain ⟨hlo, hlt, hhi, hk, hr⟩ := hn
      have hxr := hr.bounds hx
      refine ⟨(h4 hr).1, ?_⟩
      rintro y (rfl | hy | hy)
      · omega
      · have := hk.bounds hy
        omega
      · exact (h4 hr).2 y hy

namespace FoldTree

variable {t u : FoldTree} {p q o : Option FoldPtr} {x y : FoldPtr} {f g k r : Forest FoldPtr}
  {n : ℕ}

/-- The folds are nested, and on lines of the text. -/
abbrev NestedFolds (t : FoldTree) (f : Forest FoldPtr) : Prop :=
  Nested t.start t.stop 0 (t.buffer.lineCount - 1) f

/-- The characters that carry the tag are those on the lines that a collapsed fold hides. -/
def Right (t : FoldTree) (f : Forest FoldPtr) : Prop :=
  ∃ tag, t.buffer.tag = some tag ∧
    ∀ i < t.buffer.size, tag i = true ↔ t.Hides f (lineAt t.buffer.lines i)

/-- The lines of the folds and of the text stay. -/
structure SameLines (t u : FoldTree) : Prop where
  start : u.start = t.start
  stop : u.stop = t.stop
  lines : u.buffer.lines = t.buffer.lines

theorem SameShape.sameLines (h : SameShape t u) : SameLines t u := ⟨h.start, h.stop, h.lines⟩

theorem SameLines.nestedFolds (h : SameLines t u) (hn : t.NestedFolds f) : u.NestedFolds f := by
  rw [NestedFolds, h.start, h.stop, FoldBuffer.lineCount, h.lines]
  exact hn

/-- No other collapsed fold is around the fold `x`. -/
def Outermost (t : FoldTree) (f : Forest FoldPtr) (x : FoldPtr) : Prop :=
  ∀ y ∈ f.nodes, t.collapsed y = true → ¬ (t.start y < t.start x ∧ t.stop x ≤ t.stop y)

/-- Expanding a collapsed fold takes the tag off its lines, except where a collapsed fold below
it hides them. -/
theorem Holds.expand_untagged (h : t.Holds f) (hx : x ∈ f.nodes) (hc : t.collapsed x = true) :
    ∃ u k, t.expand x = some u ∧ SameShape t u ∧
      u.collapsed = assign t.collapsed (some x) false ∧ k.nodes ⊆ f.nodes ∧
      (t.NestedFolds f →
        t.buffer.Untagged u.buffer (fun l => t.start x ≤ l ∧ l ≤ t.stop x ∧ ¬ u.Hides k l) ∧
        ∀ y ∈ f.nodes, y = x ∨ y ∈ k.nodes ∨ t.stop y < t.start x ∨ t.stop x < t.start y ∨
          t.start y < t.start x ∧ t.stop x ≤ t.stop y) := by
  obtain ⟨k, hlk, hkids, hsub, hnest⟩ := exists_below t.start t.stop h.rooted.linked hx
  have hlen : k.nodes.length ≤ t.fresh := Nat.le_trans hsub.length_le h.length_le
  obtain ⟨b', heq, hlines, huntag⟩ := expandCheckVisible_of_children (t := t.setCollapsed x false)
    (k := k) (n := 2 * t.fresh + 1) (b := t.buffer) hkids (h.live x hx) fun hc =>
      expandChildren_spec (t := t.setCollapsed x false) hlk hc
        (fun y hy => h.live y (hsub.subset hy)) (h.live x hx) nofun (by omega)
  refine ⟨{ t.setCollapsed x false with buffer := b' }, k, ?_, ⟨rfl, hlines⟩, rfl, hsub.subset,
    fun hn => ⟨?_, (hnest hn).2⟩⟩
  · rw [FoldTree.expand, if_pos hc]
    exact congrArg (Option.map _) heq
  · obtain ⟨h0, hlt, -⟩ := hn.bounds hx
    refine (huntag (hnest hn).1 h0 hlt).congr fun l => ?_
    have hself : assign t.collapsed (some x) false x = false := by simp [assign]
    simp [Hides, covered_node, hself, not_covered_nil, setCollapsed]

theorem Holds.expand (h : t.Holds f) (hx : x ∈ f.nodes) : ∃ u, t.expand x = some u ∧
    SameShape t u ∧ u.collapsed = assign t.collapsed (some x) false ∧
    (t.NestedFolds f → (t.collapsed x = true → t.Outermost f x) → t.Right f →
      u.Right f) := by
  by_cases hc : t.collapsed x = true
  · obtain ⟨u, k, heq, hsame, hcol, hsub, huntag⟩ := h.expand_untagged hx hc
    refine ⟨u, heq, hsame, hcol, ?_⟩
    rintro hn hout ⟨tag, htag, hright⟩
    obtain ⟨huntag, hplace⟩ := huntag hn
    obtain ⟨tag', htag'⟩ := Option.isSome_iff_exists.1 (huntag.isSome.trans (by simp [htag]))
    refine ⟨tag', htag', fun i hi => ?_⟩
    rw [FoldBuffer.size, hsame.lines] at hi
    rw [huntag.tag htag htag' i hi, hright i hi, hsame.lines]
    generalize ((lineAt t.buffer.lines i : ℕ) : ℤ) = l
    simp only [Hides, Covered, hcol, hsame.start, hsame.stop, assign]
    constructor
    · rintro ⟨⟨y, hy, hcy, hlt, hle⟩, hnot⟩
      by_cases hxy : x = y
      · subst hxy
        by_contra hno
        refine hnot ⟨by omega, hle, ?_⟩
        rintro ⟨z, hz, hcz⟩
        exact hno ⟨z, hsub hz, hcz⟩
      · exact ⟨y, hy, by simpa [hxy] using hcy, hlt, hle⟩
    · rintro ⟨y, hy, hcy', hlt, hle⟩
      have hxy : x ≠ y := by
        rintro rfl
        simp at hcy'
      have hcy : t.collapsed y = true := by simpa [hxy] using hcy'
      refine ⟨⟨y, hy, hcy, hlt, hle⟩, ?_⟩
      rintro ⟨hl, hl', hk⟩
      rcases hplace y hy with rfl | hyk | hlt' | hlt' | haround
      · exact hxy rfl
      · exact hk ⟨y, hyk, hcy', hlt, hle⟩
      · omega
      · omega
      · exact hout hc y hy hcy haround
  · refine ⟨t, by rw [FoldTree.expand, if_neg hc], .refl, ?_, fun _ _ hr => hr⟩
    have hc : t.collapsed x = false := by simpa using hc
    funext y
    simp only [assign]
    split
    · next hy => rw [← Option.some.inj hy, hc]
    · rfl

theorem SameShape.collapse : SameShape t (t.collapse x) := by
  rw [FoldTree.collapse]
  split
  · exact .refl
  · exact ⟨rfl, rfl⟩

theorem collapsed_collapse : (t.collapse x).collapsed = assign t.collapsed (some x) true := by
  rw [FoldTree.collapse]
  split
  · next hc =>
    funext y
    simp only [assign]
    split
    · next hy => rw [← Option.some.inj hy, hc]
    · rfl
  · rfl

/-- Collapsing a fold puts the tag on its lines but the first. -/
theorem tag_collapse {tag : ℕ → Bool} (h : t.Holds f) (hx : x ∈ f.nodes)
    (hn : t.NestedFolds f) (hc : t.collapsed x = false) (htag : t.buffer.tag = some tag) :
    ∃ tag', (t.collapse x).buffer.tag = some tag' ∧ ∀ i < t.buffer.size, tag' i = true ↔
      tag i = true ∨ t.start x < lineAt t.buffer.lines i ∧ lineAt t.buffer.lines i ≤ t.stop x := by
  obtain ⟨h0, hlt, -⟩ := hn.bounds hx
  have hstart : (t.setCollapsed x true).getStart x = t.start x := by
    simp [getStart, setCollapsed, h.live x hx]
  have hstop : (t.setCollapsed x true).getEnd x = t.stop x := by
    simp [getEnd, setCollapsed, h.live x hx]
  refine ⟨fun i => tag i || t.buffer.between (t.start x + 1) (t.stop x + 1) i, ?_, fun i hi => ?_⟩
  · rw [FoldTree.collapse, if_neg (by simp [hc])]
    simp only [hstart, hstop, FoldBuffer.applyTag]
    simp [setCollapsed, htag, FoldBuffer.between, FoldBuffer.lineOffset]
  · rw [Bool.or_eq_true, FoldBuffer.between_iff (by omega) (by omega) hi, Int.add_one_le_iff,
      Int.lt_add_one_iff]

theorem Right.collapse (hr : t.Right f) (h : t.Holds f) (hx : x ∈ f.nodes)
    (hn : t.NestedFolds f) : (t.collapse x).Right f := by
  by_cases hc : t.collapsed x = true
  · rwa [FoldTree.collapse, if_pos hc]
  · obtain ⟨tag, htag, hright⟩ := hr
    obtain ⟨tag', htag', heq⟩ := tag_collapse h hx hn (by simpa using hc) htag
    have hs : SameShape t (t.collapse x) := .collapse
    refine ⟨tag', htag', fun i hi => ?_⟩
    rw [FoldBuffer.size, hs.lines] at hi
    rw [heq i hi, hright i hi, hs.lines]
    generalize ((lineAt t.buffer.lines i : ℕ) : ℤ) = l
    simp only [Hides, Covered, collapsed_collapse, hs.start, hs.stop, assign]
    grind

theorem Removed.right (hrem : Removed t u x) (h : t.Holds f) (hc : t.collapsed x = false)
    (hr : t.Right f) : u.Right (removeNode x f) := by
  obtain ⟨tag, htag, hright⟩ := hr
  refine ⟨tag, by rw [hrem.buffer, htag], fun i hi => ?_⟩
  rw [hrem.buffer] at hi
  rw [hright i hi]
  simp only [Hides, Covered, removeNode_nodes h.rooted.nodup, h.rooted.nodup.mem_erase_iff,
    hrem.collapsed, hrem.start, hrem.stop, hrem.buffer]
  grind

theorem Holds.remove (h : t.Holds f) (hx : x ∈ f.nodes) : ∃ u, t.remove x = some u ∧
    u.Holds (removeNode x f) ∧ SameLines t u ∧
    (t.NestedFolds f → (t.collapsed x = true → t.Outermost f x) → t.Right f →
      u.Right (removeNode x f)) := by
  obtain ⟨v, hv, hsame, hcol, hright⟩ := h.expand hx
  obtain ⟨u, hu, hrem, hholds⟩ := (hsame.holds h).detach hx
  refine ⟨u, by rw [FoldTree.remove, hv]; exact hu, hholds,
    ⟨hrem.start.trans hsame.start, hrem.stop.trans hsame.stop,
      by rw [hrem.buffer, hsame.lines]⟩, fun hn hout hr => ?_⟩
  exact hrem.right (hsame.holds h) (by simp [hcol, assign]) (hright hn hout hr)

/-! ## All folds -/

/-- The body of the loop of `_moo_fold_tree_expand_all`, over the folds `xs`. -/
theorem expandAll_foldl {xs : List FoldPtr} {first : Option FoldPtr}
    (hlive : ∀ x ∈ xs, t.deleted x = false) :
    xs.foldl (fun (t, foldFirst) fold =>
      if !t.deleted fold && t.collapsed fold
      then (t.setCollapsed fold false, foldFirst.or (some fold))
      else (t, foldFirst)) (t, first) =
    ({ t with collapsed := fun y => if y ∈ xs then false else t.collapsed y },
      first.or (xs.find? t.collapsed)) := by
  induction xs generalizing t first with
  | nil => simp
  | cons x xs ih =>
    rw [List.foldl_cons]
    have hdel : t.deleted x = false := hlive x (by simp)
    cases hc : t.collapsed x with
    | false =>
      simp only [hdel, hc, Bool.not_false, Bool.and_false, Bool.false_eq_true, if_false,
        List.find?_cons]
      rw [ih fun y hy => hlive y (by simp [hy])]
      congr 2
      funext y
      grind
    | true =>
      simp only [hdel, hc, Bool.not_false, Bool.and_true, if_true, List.find?_cons]
      rw [ih (t := t.setCollapsed x false) fun y hy => hlive y (by simp [hy])]
      simp only [setCollapsed, assign, Option.or_assoc, Option.some_or]
      congr 2
      funext y
      grind

theorem Holds.expandAll (h : t.Holds f) : ∃ u r, t.expandAll = some (u, r) ∧ SameShape t u ∧
    (t.NestedFolds f → t.Right f → u.Right f) := by
  rw [FoldTree.expandAll, h.foreach, Option.map_some, expandAll_foldl h.live, Option.none_or]
  have hnone {u : FoldTree} (hu : u.collapsed = fun y => if y ∈ f.nodes then false else t.collapsed y)
      (l : ℤ) : ¬ u.Hides f l := by
    rintro ⟨y, hy, hc, -⟩
    simp [hu, hy] at hc
  cases hfind : f.nodes.find? t.collapsed with
  | none =>
    refine ⟨_, _, rfl, ⟨rfl, rfl⟩, fun _ ⟨tag, htag, hright⟩ => ⟨tag, htag, fun i hi => ?_⟩⟩
    rw [hright i hi]
    refine ⟨fun ⟨y, hy, hc, _⟩ => ?_, fun hh => absurd hh (hnone rfl _)⟩
    exact absurd hc (List.find?_eq_none.1 hfind y hy)
  | some x =>
    refine ⟨_, _, rfl, ⟨rfl, rfl⟩, fun hn ⟨tag, htag, hright⟩ => ?_⟩
    obtain ⟨-, as, bs, hnodes, has⟩ := List.find?_eq_some_iff_append.1 hfind
    have hx : x ∈ f.nodes := by simp [hnodes]
    obtain ⟨h0, hlt, hle⟩ := hn.bounds hx
    have hstart : getStart { t with
        collapsed := fun y => if y ∈ f.nodes then false else t.collapsed y } x = t.start x := by
      simp [getStart, h.live x hx]
    rw [hstart]
    have huntag : t.buffer.Untagged (t.buffer.removeTag (t.start x) t.buffer.lineCount) _ :=
      .removeTag h0 (by omega)
    obtain ⟨tag', htag'⟩ := Option.isSome_iff_exists.1 (huntag.isSome.trans (by simp [htag]))
    refine ⟨tag', htag', fun i (hi : i < t.buffer.size) => ⟨fun hi' => ?_, fun hh =>
      absurd hh (hnone rfl _)⟩⟩
    obtain ⟨hi', hnot⟩ := (huntag.tag htag htag' i hi).1 hi'
    -- the fold that hides the line is not before `x`
    obtain ⟨y, hy, hc, hly, hyl⟩ := (hright i hi).1 hi'
    have hxy : t.start x ≤ t.start y := by
      rw [hnodes, List.mem_append, List.mem_cons] at hy
      rcases hy with hy | rfl | hy
      · exact absurd hc (by simpa using has y hy)
      · exact Int.le_refl _
      · have hpair := hn.pairwise
        rw [hnodes] at hpair
        exact Int.le_of_lt ((List.pairwise_cons.1 (List.pairwise_append.1 hpair).2.1).1 y hy)
    have hlt : lineAt t.buffer.lines i < t.buffer.lines.length := lineAt_lt hi
    exact (hnot ⟨by omega, by simp only [FoldBuffer.lineCount]; omega⟩).elim

/-- The loop of `_moo_fold_tree_collapse_all`. -/
theorem collapseFrom_spec {v : FoldTree} (hl : Linked t.heap p q g) (hsub : g.tops ⊆ f.nodes)
    (h : t.Holds f) (hn : g.tops.length ≤ n) (hv : SameShape t v) (ret : Bool) :
    ∃ u r, v.collapseFrom n g.head ret = some (u, r) ∧ SameShape t u ∧
      (t.NestedFolds f → v.Right f → u.Right f) := by
  induction g generalizing p q n v ret with
  | nil => exact ⟨v, ret, by cases n <;> rfl, hv, fun _ hr => hr⟩
  | node x k r _ ihr =>
    obtain ⟨n, rfl⟩ := Nat.exists_eq_succ_of_ne_zero (Nat.ne_zero_of_lt hn)
    have hx : x ∈ f.nodes := hsub (by simp)
    have hv' : SameShape v (v.collapse x) := .collapse
    have hnext : (v.collapse x).next x = r.head := by
      have hcell := hl.1
      rw [← hv.heap, ← hv'.heap] at hcell
      exact congrArg Cell.next hcell
    rw [head_node, collapseFrom]
    simp only [hnext]
    obtain ⟨u, b, heq, hsame, hright⟩ := ihr (n := n) hl.2.2 (fun y hy => hsub (by simp [hy]))
      (by simpa using hn) (hv.trans hv') (if v.collapsed x then ret else true)
    exact ⟨u, b, heq, hsame, fun hnest hr => hright hnest
      (hr.collapse (hv.holds h) hx (hv.sameLines.nestedFolds hnest))⟩

theorem Holds.collapseAll (h : t.Holds f) : ∃ u r, t.collapseAll = some (u, r) ∧ SameShape t u ∧
    (t.NestedFolds f → t.Right f → u.Right f) := by
  have hn : f.tops.length ≤ t.rounds := by
    have := h.length_le
    have := tops_length_le (f := f)
    unfold rounds
    omega
  have := collapseFrom_spec h.rooted.linked tops_subset h hn .refl false
  rwa [← h.rooted.first] at this

theorem Holds.toggle (h : t.Holds f) : ∃ u r, t.toggle = some (u, r) ∧ SameShape t u ∧
    (t.NestedFolds f → t.Right f → u.Right f) := by
  rw [FoldTree.toggle, h.foreach]
  simp only
  split
  · obtain ⟨u, r, heq, hrest⟩ := h.expandAll
    exact ⟨u, true, by rw [heq]; rfl, hrest⟩
  · split
    · obtain ⟨u, r, heq, hrest⟩ := h.collapseAll
      exact ⟨u, true, by rw [heq]; rfl, hrest⟩
    · exact ⟨t, false, rfl, .refl, fun _ hr => hr⟩

/-! ## A fold that lost a mark -/

theorem sameShape_repaint : SameShape t (t.repaint x) ∧ (t.repaint x).collapsed = t.collapsed := by
  rw [repaint]
  split
  · next hc =>
    have hc : t.collapsed x = true := by
      rw [Bool.and_eq_true] at hc
      exact hc.2
    have hs : SameShape t (t.setCollapsed x false) := ⟨rfl, rfl⟩
    refine ⟨hs.trans .collapse, ?_⟩
    rw [collapsed_collapse]
    funext y
    simp only [assign, setCollapsed]
    grind
  · exact ⟨.refl, rfl⟩

theorem tag_repaint {tag : ℕ → Bool} (h : t.Holds f) (hx : x ∈ f.nodes) (hn : t.NestedFolds f)
    (htag : t.buffer.tag = some tag) :
    ∃ tag', (t.repaint x).buffer.tag = some tag' ∧ ∀ i < t.buffer.size, tag' i = true ↔
      tag i = true ∨ t.collapsed x = true ∧ t.start x < lineAt t.buffer.lines i ∧
        lineAt t.buffer.lines i ≤ t.stop x := by
  rw [repaint, h.live x hx]
  split
  · next hc =>
    have hc : t.collapsed x = true := hc
    have hs : SameShape t (t.setCollapsed x false) := ⟨rfl, rfl⟩
    have hset : (t.setCollapsed x false).collapsed x = false := by simp [setCollapsed, assign]
    simp only [hc, true_and]
    exact tag_collapse (hs.holds h) hx (hs.sameLines.nestedFolds hn) hset htag
  · next hc =>
    have hc : t.collapsed x = false := by simpa using hc
    exact ⟨tag, htag, by simp [hc]⟩

theorem repaint_foldl {xs : List FoldPtr} (h : t.Holds f) (hxs : xs ⊆ f.nodes) :
    SameShape t (xs.foldl repaint t) ∧ (xs.foldl repaint t).collapsed = t.collapsed ∧
    ∀ {tag}, t.NestedFolds f → t.buffer.tag = some tag →
      ∃ tag', (xs.foldl repaint t).buffer.tag = some tag' ∧ ∀ i < t.buffer.size, tag' i = true ↔
        tag i = true ∨ ∃ x ∈ xs, t.collapsed x = true ∧ t.start x < lineAt t.buffer.lines i ∧
          lineAt t.buffer.lines i ≤ t.stop x := by
  induction xs generalizing t with
  | nil => exact ⟨.refl, rfl, fun _ htag => ⟨_, htag, by simp⟩⟩
  | cons x xs ih =>
    obtain ⟨hs, hc⟩ := sameShape_repaint (t := t) (x := x)
    obtain ⟨hs', hc', hrest⟩ := ih (t := t.repaint x) (hs.holds h)
      fun y hy => hxs (List.mem_cons_of_mem _ hy)
    refine ⟨hs.trans hs', hc'.trans hc, fun {tag} hn htag => ?_⟩
    obtain ⟨tag₁, htag₁, h₁⟩ := tag_repaint h (hxs List.mem_cons_self) hn htag
    obtain ⟨tag₂, htag₂, h₂⟩ := hrest (hs.sameLines.nestedFolds hn) htag₁
    refine ⟨tag₂, htag₂, fun i hi => ?_⟩
    rw [h₂ i (by rwa [FoldBuffer.size, hs.lines]), h₁ i hi, hc, hs.start, hs.stop, hs.lines]
    simp [or_assoc]

theorem remove_of_not_collapsed (hc : t.collapsed x = false) : t.remove x = t.detach x := by
  simp [FoldTree.remove, FoldTree.expand, hc]

theorem Holds.markDeleted (h : t.Holds f) (hx : x ∈ f.nodes) : ∃ u, t.markDeleted x = some u ∧
    u.Holds (removeNode x f) ∧ SameLines t u ∧
    (t.NestedFolds f → t.buffer.tag.isSome → u.Right (removeNode x f)) := by
  have hs : SameShape t (t.setCollapsed x false) := ⟨rfl, rfl⟩
  obtain ⟨v, hv, hrem, hholds⟩ := (hs.holds h).detach hx
  have hlines : SameLines t v := ⟨hrem.start, hrem.stop, by rw [hrem.buffer]; rfl⟩
  rw [FoldTree.markDeleted, h.live x hx, remove_of_not_collapsed (by simp [setCollapsed, assign]), hv]
  simp only [Bool.false_eq_true, if_false]
  have hbuffer : v.buffer = t.buffer := hrem.buffer
  split
  · next hnone =>
    refine ⟨v, rfl, hholds, hlines, fun _ hsome => ?_⟩
    rw [hbuffer] at hnone
    simp [Option.isNone_iff_eq_none.1 hnone] at hsome
  · generalize hw : ({ v with buffer := v.buffer.removeTag 0 v.buffer.lineCount } : FoldTree) = w
    have hvw : SameShape v w := by
      rw [← hw]
      exact ⟨rfl, rfl⟩
    have hfolds : v.folds = w.folds := by rw [← hw]
    rw [hfolds, (hvw.holds hholds).foreach]
    obtain ⟨hsame, hcol, htags⟩ := repaint_foldl (hvw.holds hholds) (List.Subset.refl _)
    rw [Option.map_some]
    generalize (removeNode x f).nodes.foldl repaint w = u at hsame hcol htags
    have hvu : SameShape v u := hvw.trans hsame
    have htu : SameLines t u := ⟨hvu.start.trans hlines.start, hvu.stop.trans hlines.stop,
      hvu.lines.trans hlines.lines⟩
    refine ⟨u, rfl, hvu.holds hholds, htu, fun hn hsome => ?_⟩
    have hnw : w.NestedFolds (removeNode x f) :=
      hvw.sameLines.nestedFolds (hlines.nestedFolds hn.removeNode)
    obtain ⟨tag, htag⟩ := Option.isSome_iff_exists.1 hsome
    have hwtag : w.buffer.tag = some fun i => tag i && !t.buffer.between 0 t.buffer.lineCount i := by
      rw [← hw]
      simp [FoldBuffer.removeTag, hbuffer, htag]
    obtain ⟨tag', htag', hright⟩ := htags hnw hwtag
    refine ⟨tag', htag', fun i hi => ?_⟩
    have hi : i < t.buffer.size := by rwa [FoldBuffer.size, htu.lines] at hi
    have hlt := lineAt_lt hi
    have hcount : t.buffer.lineCount = t.buffer.lines.length := rfl
    have hbetween : t.buffer.between 0 t.buffer.lineCount i = true :=
      (FoldBuffer.between_iff (Int.le_refl 0) (by omega) hi).2 ⟨by omega, by omega⟩
    rw [hright i (by rwa [FoldBuffer.size, hvw.lines, hbuffer])]
    simp only [hbetween, Bool.not_true, Bool.and_false, Bool.false_eq_true, false_or]
    rw [Hides, Covered, hcol, hsame.start, hsame.stop, hsame.lines]

end FoldTree

end Medit
