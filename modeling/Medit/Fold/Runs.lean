import Medit.Fold.Nesting

/-!
# Runs of the fold operations

## Main results

* `FoldRun.links_agree` — the links stay in order as long as no addition comes between two siblings.
* `FoldRun.ranges_nest` — the folds stay nested as long as, besides, no addition goes
  around a fold and reaches its next sibling.
* `FoldRun.hidden` — the tag is on the lines that the collapsed folds hide.
-/

namespace Medit

open LinkedForest LinkedForest.Forest

/-- The operations on the folds of a buffer. -/
inductive FoldOp
  | add (firstLine lastLine : ℤ)
  | remove (fold : FoldPtr)
  | markDeleted (fold : FoldPtr)
  | collapse (fold : FoldPtr)
  | expand (fold : FoldPtr)
  | collapseAll
  | expandAll
  | toggle

namespace FoldOp

/-- Execute an operation: the tree after it, and the fold an addition returns. -/
def run (t : FoldTree) : FoldOp → Option (FoldTree × Option FoldPtr)
  | add firstLine lastLine => t.add firstLine lastLine
  | remove fold => (t.remove fold).map (·, none)
  | markDeleted fold => (t.markDeleted fold).map (·, none)
  | collapse fold => some (t.collapse fold, none)
  | expand fold => (t.expand fold).map (·, none)
  | collapseAll => t.collapseAll.map fun r => (r.1, none)
  | expandAll => t.expandAll.map fun r => (r.1, none)
  | toggle => t.toggle.map fun r => (r.1, none)

/-- What the callers see to: the lines of an addition are in order, and a fold has
been returned by an addition and not been removed. -/
def Legal (live : List FoldPtr) : FoldOp → Prop
  | add firstLine lastLine => 0 ≤ firstLine ∧ firstLine < lastLine
  | remove fold | markDeleted fold | collapse fold | expand fold => fold ∈ live
  | collapseAll | expandAll | toggle => True

instance (folds : List FoldPtr) : (op : FoldOp) → Decidable (op.Legal folds)
  | add firstLine lastLine => inferInstanceAs (Decidable (0 ≤ firstLine ∧ firstLine < lastLine))
  | remove fold | markDeleted fold | collapse fold | expand fold =>
    inferInstanceAs (Decidable (fold ∈ folds))
  | collapseAll | expandAll | toggle => inferInstanceAs (Decidable True)

/-- The folds after an operation that have been returned and not been removed. -/
def live (new : Option FoldPtr) (folds : List FoldPtr) : FoldOp → List FoldPtr
  | add _ _ => new.toList ++ folds
  | remove fold | markDeleted fold => folds.erase fold
  | _ => folds

/-- The addition does not come between two siblings. -/
def Linking (t : FoldTree) : FoldOp → Prop
  | add firstLine lastLine => ¬ t.Between firstLine lastLine
  | _ => True

/-- The addition is on lines of the text, and if it goes around a fold it ends before the next
sibling. -/
def Nesting (t : FoldTree) : FoldOp → Prop
  | add firstLine lastLine => lastLine < t.buffer.lineCount ∧ ¬ t.Covers firstLine lastLine
  | _ => True

/-- No collapsed fold is above a fold that is expanded, be it because it is removed. -/
def Showing (t : FoldTree) : FoldOp → Prop
  | expand fold => ∀ y, t.Descendant fold y → t.collapsed y = false
  | remove fold => t.collapsed fold = true → ∀ y, t.Descendant fold y → t.collapsed y = false
  | _ => True

end FoldOp

/-- A tree, and the folds that have been returned by additions and not been removed. -/
structure FoldState where
  tree : FoldTree
  live : List FoldPtr

/-- The runs from a state whose steps meet the condition `ok`. -/
inductive FoldRun (ok : FoldTree → FoldOp → Prop) (s : FoldState) : FoldState → Prop
  | refl : FoldRun ok s s
  | step {t : FoldState} {u : FoldTree} {new : Option FoldPtr} (op : FoldOp) : FoldRun ok s t →
      op.Legal t.live → ok t.tree op → op.run t.tree = some (u, new) →
      FoldRun ok s ⟨u, op.live new t.live⟩

/-- The state of a new tree. -/
def FoldState.new (buffer : FoldBuffer) : FoldState := ⟨.new buffer, []⟩

/-- The live folds of the state are the forest `f`. -/
structure FoldState.Holds (s : FoldState) (f : Forest FoldPtr) : Prop where
  tree : s.tree.Holds f
  live : s.live.Perm f.nodes

namespace FoldTree

variable {t u : FoldTree} {x : FoldPtr} {f : Forest FoldPtr}

/-- A new fold is not collapsed. -/
theorem NewFold.right {a b : ℤ} {g : Forest FoldPtr} (hnew : NewFold t u a b) (h : t.Holds f)
    (hnodes : g.nodes.Perm (t.fresh :: f.nodes)) (hr : t.Right f) : u.Right g := by
  obtain ⟨tag, htag, hright⟩ := hr
  refine ⟨tag, by rw [hnew.buffer, htag], fun i hi => ?_⟩
  rw [hnew.buffer] at hi ⊢
  rw [hright i hi]
  have hfresh := h.fresh_notMem
  simp only [Hides, Covered, hnodes.mem_iff, List.mem_cons, hnew.collapsed, hnew.start, hnew.stop,
    assign, Option.some.injEq]
  grind

theorem Holds.outermost (h : t.Holds f) (hn : t.NestedFolds f) (hx : x ∈ f.nodes)
    (hc : ∀ y, t.Descendant x y → t.collapsed y = false) : t.Outermost f x := by
  intro y hy hcy hlt
  have := hn.bounds hx
  have := hn.bounds hy
  rcases h.below hn hy hx with rfl | hd | hor
  · omega
  · simp [hc y hd] at hcy
  · omega

end FoldTree

/-- What an operation does to a state in order. -/
theorem FoldState.Holds.step {s : FoldState} {f : Forest FoldPtr} {op : FoldOp} (h : s.Holds f)
    (hlegal : op.Legal s.live) (hlink : op.Linking s.tree) :
    ∃ u new g, op.run s.tree = some (u, new) ∧ FoldState.Holds ⟨u, op.live new s.live⟩ g ∧
      ((∃ a b, op = .add a b) → new = none → u = s.tree) ∧
      (s.tree.NestedFolds f → op.Nesting s.tree → u.NestedFolds g) ∧
      (s.tree.NestedFolds f → op.Showing s.tree → s.tree.Right f → u.Right g) := by
  obtain ⟨t, live⟩ := s
  obtain ⟨h, hperm⟩ := h
  dsimp only at h hperm hlegal hlink ⊢
  have hmem {x : FoldPtr} (hx : x ∈ live) : x ∈ f.nodes := hperm.mem_iff.1 hx
  -- an operation that changes neither the folds nor their lines
  have hshape {u : FoldTree} (hs : FoldTree.SameShape t u) : FoldState.Holds ⟨u, live⟩ f ∧
      (t.NestedFolds f → u.NestedFolds f) := ⟨⟨hs.holds h, hperm⟩, hs.sameLines.nestedFolds⟩
  cases op with
  | add a b =>
    obtain ⟨-, heq⟩ | ⟨g, u, hg, heq, hu, hnew⟩ := h.add hlegal.2 hlink
    · exact ⟨t, none, f, heq, ⟨h, hperm⟩, fun _ _ => rfl, fun hn _ => hn, fun _ _ hr => hr⟩
    · have hnodes := addRange_nodes hg
      refine ⟨u, _, g, heq, ⟨hu, (hperm.cons _).trans hnodes.symm⟩, ?_, ?_,
        fun _ _ hr => hnew.right h hnodes hr⟩
      · rintro - ⟨⟩
      rintro hn ⟨hb, hcov⟩
      have hmark : t.buffer.markLine a = a ∧ t.buffer.markLine b = b := by
        simp only [FoldBuffer.markLine]
        have := hlegal.1
        have := hlegal.2
        constructor <;> rw [if_neg] <;> omega
      have := FoldTree.addRange_nested h.rooted.linked hn h.live h.fresh_notMem hlegal.1
        (by omega) hlegal.2 (h.rooted.first ▸ .start) hcov hg
      rw [FoldTree.NestedFolds, hnew.start, hnew.stop, hnew.buffer, hmark.1, hmark.2]
      exact this
  | remove x =>
    obtain ⟨u, heq, hu, hlines, hright⟩ := h.remove (hmem hlegal)
    refine ⟨u, none, _, by simp [FoldOp.run, heq], ⟨hu, ?_⟩, by simp, fun hn _ =>
      hlines.nestedFolds hn.removeNode, fun hn hshow => hright hn fun hc =>
        h.outermost hn (hmem hlegal) (hshow hc)⟩
    rw [removeNode_nodes h.rooted.nodup]
    exact hperm.erase x
  | markDeleted x =>
    obtain ⟨u, heq, hu, hlines, hright⟩ := h.markDeleted (hmem hlegal)
    refine ⟨u, none, _, by simp [FoldOp.run, heq], ⟨hu, ?_⟩, by simp, fun hn _ =>
      hlines.nestedFolds hn.removeNode, ?_⟩
    · rw [removeNode_nodes h.rooted.nodup]
      exact hperm.erase x
    · rintro hn - ⟨tag, htag, -⟩
      exact hright hn (by simp [htag])
  | collapse x =>
    obtain ⟨hs, hn⟩ := hshape FoldTree.SameShape.collapse
    exact ⟨_, none, f, rfl, hs, by simp, fun hn' _ => hn hn', fun hn _ hr =>
      hr.collapse h (hmem hlegal) hn⟩
  | expand x =>
    obtain ⟨u, heq, hs, -, hright⟩ := h.expand (hmem hlegal)
    exact ⟨u, none, f, by simp [FoldOp.run, heq], (hshape hs).1, by simp, fun hn _ => (hshape hs).2 hn,
      fun hn hshow => hright hn fun _ => h.outermost hn (hmem hlegal) hshow⟩
  | collapseAll =>
    obtain ⟨u, r, heq, hs, hright⟩ := h.collapseAll
    exact ⟨u, none, f, by simp [FoldOp.run, heq], (hshape hs).1, by simp, fun hn _ => (hshape hs).2 hn,
      fun hn _ => hright hn⟩
  | expandAll =>
    obtain ⟨u, r, heq, hs, hright⟩ := h.expandAll
    exact ⟨u, none, f, by simp [FoldOp.run, heq], (hshape hs).1, by simp, fun hn _ => (hshape hs).2 hn,
      fun hn _ => hright hn⟩
  | toggle =>
    obtain ⟨u, r, heq, hs, hright⟩ := h.toggle
    exact ⟨u, none, f, by simp [FoldOp.run, heq], (hshape hs).1, by simp, fun hn _ => (hshape hs).2 hn,
      fun hn _ => hright hn⟩

theorem FoldState.Holds.new {b : FoldBuffer} : (FoldState.new b).Holds nil :=
  ⟨.new, .refl _⟩

/-- The characters on the lines that a collapsed live fold hides, and no others, carry the
tag. -/
def FoldState.Hidden (s : FoldState) : Prop :=
  ∃ tag, s.tree.buffer.tag = some tag ∧ ∀ i < s.tree.buffer.size, tag i = true ↔
    ∃ x ∈ s.live, s.tree.collapsed x = true ∧
      s.tree.getStart x + 1 ≤ lineAt s.tree.buffer.lines i ∧
      lineAt s.tree.buffer.lines i ≤ s.tree.getEnd x

theorem FoldState.Holds.hides_iff {s : FoldState} {f : Forest FoldPtr} (h : s.Holds f) {l : ℤ} :
    s.tree.Hides f l ↔ ∃ x ∈ s.live, s.tree.collapsed x = true ∧ s.tree.getStart x + 1 ≤ l ∧
      l ≤ s.tree.getEnd x := by
  refine exists_congr fun x => and_congr_left_iff.2 ?_ |>.trans (and_congr_right fun hx => ?_)
  · exact fun _ => h.live.mem_iff.symm
  · have hlive := h.tree.live x (h.live.mem_iff.1 hx)
    rw [FoldTree.getStart_of_live hlive, FoldTree.getEnd_of_live hlive, Int.add_one_le_iff]

namespace FoldRun

variable {ok : FoldTree → FoldOp → Prop} {s t : FoldState} {f : Forest FoldPtr} {b : FoldBuffer}

theorem holds (run : FoldRun ok s t) (h : s.Holds f) (hok : ∀ t op, ok t op → op.Linking t) :
    ∃ g, t.Holds g := by
  induction run with
  | refl => exact ⟨f, h⟩
  | step op _ hlegal hstep heq ih =>
    obtain ⟨g, hg⟩ := ih
    obtain ⟨u, new, g', heq', hg', -⟩ := hg.step hlegal (hok _ _ hstep)
    obtain ⟨rfl, rfl⟩ := Prod.mk.inj (Option.some.inj (heq.symm.trans heq'))
    exact ⟨g', hg'⟩

theorem nested (run : FoldRun ok s t) (h : s.Holds f) (hn : s.tree.NestedFolds f)
    (hok : ∀ t op, ok t op → op.Linking t ∧ op.Nesting t) :
    ∃ g, t.Holds g ∧ t.tree.NestedFolds g ∧
      (s.tree.Right f → (∀ t op, ok t op → op.Showing t) → t.tree.Right g) := by
  induction run with
  | refl => exact ⟨f, h, hn, fun hr _ => hr⟩
  | step op _ hlegal hstep heq ih =>
    obtain ⟨g, hg, hng, hright⟩ := ih
    obtain ⟨hlink, hnest⟩ := hok _ _ hstep
    obtain ⟨u, new, g', heq', hg', -, hng', hright'⟩ := hg.step hlegal hlink
    obtain ⟨rfl, rfl⟩ := Prod.mk.inj (Option.some.inj (heq.symm.trans heq'))
    exact ⟨g', hg', hng' hng hnest, fun hr hshow => hright' hng (hshow _ _ hstep) (hright hr hshow)⟩

/-- As long as no addition comes between two siblings, the live folds are well linked, and the
operations come to an end. A refused addition changes nothing. -/
theorem links_agree (run : FoldRun (fun t op => op.Linking t) (.new b) s) :
    WellLinked s.tree.heap (· ∈ s.live) ∧
    (∀ op : FoldOp, op.Legal s.live → op.Linking s.tree → (op.run s.tree).isSome) ∧
    ∀ firstLine lastLine u, s.tree.add firstLine lastLine = some (u, none) → u = s.tree := by
  obtain ⟨f, h⟩ := run.holds .new fun _ _ hok => hok
  refine ⟨?_, fun op hlegal hlink => ?_, fun _ _ _ => FoldTree.insertFold_none⟩
  · have hlive : (· ∈ s.live) = (· ∈ f.nodes) := funext fun x => propext h.live.mem_iff
    rw [hlive]
    exact h.tree.rooted.wellLinked
  · obtain ⟨u, new, g, heq, -⟩ := h.step hlegal hlink
    simp [heq]

theorem not_between {t : FoldTree} (hnext : ∀ x, t.next x = none) {firstLine lastLine : ℤ} :
    ¬ t.Between firstLine lastLine := by
  rintro ⟨p, q, x, hreach, -⟩
  generalize ho : some x = o at hreach
  cases hreach with
  | next => simp [hnext] at ho

/-- An addition to a new tree. -/
theorem links_agree_one : ∃ s, FoldRun (fun t op => op.Linking t) (.new ⟨[1, 1], none⟩) s ∧
    s.live = [0] ∧ WellLinked s.tree.heap (· ∈ s.live) :=
  have run : FoldRun (fun t op => op.Linking t) (.new ⟨[1, 1], none⟩) _ :=
    .step (.add 0 1) .refl (by decide) (not_between fun _ => rfl) rfl
  ⟨_, run, rfl, run.links_agree.1⟩

/-- A third fold between two others is not reached, and the two do not agree. -/
theorem add_between_fails : ∃ s, FoldRun (fun _ _ => True) (.new ⟨[1, 1, 1, 1, 1, 1], none⟩) s ∧
    ¬ WellLinked s.tree.heap (· ∈ s.live) := by
  refine ⟨_, .step (.add 2 3) (.step (.add 4 5) (.step (.add 0 1) .refl (by decide) trivial rfl)
    (by decide) trivial rfl) (by decide) trivial rfl, fun h => ?_⟩
  have := h.next_prev (x := 0) (y := 1) (by decide) (by decide)
  exact absurd this (by decide)

/-- As long as, besides, an addition around a fold ends before the next sibling, the live folds
are properly nested; in particular those inside the range of another one are below it. -/
theorem ranges_nest (run : FoldRun (fun t op => op.Linking t ∧ op.Nesting t) (.new b) s) :
    s.tree.WellNested (· ∈ s.live) := by
  obtain ⟨f, h, hn, -⟩ := run.nested .new trivial fun _ _ hok => hok
  have hlive : (· ∈ s.live) = (· ∈ f.nodes) := funext fun x => propext h.live.mem_iff
  rw [hlive]
  exact h.tree.wellNested hn

theorem not_covers {t : FoldTree} (hnext : ∀ x, t.next x = none) {firstLine lastLine : ℤ} :
    ¬ t.Covers firstLine lastLine := by
  rintro ⟨p, q, x, y, -, -, -, hy, -⟩
  simp [hnext] at hy

/-- A fold around another one. -/
theorem ranges_nest_around : ∃ s,
    FoldRun (fun t op => op.Linking t ∧ op.Nesting t) (.new ⟨[1, 1, 1, 1], none⟩) s ∧
    s.live = [1, 0] ∧ s.tree.children 1 = some 0 ∧ s.tree.WellNested (· ∈ s.live) :=
  have run : FoldRun (fun t op => op.Linking t ∧ op.Nesting t) (.new ⟨[1, 1, 1, 1], none⟩) _ :=
    .step (.add 0 3) (.step (.add 1 2) .refl (by decide)
      ⟨not_between fun _ => rfl, by decide, not_covers fun _ => rfl⟩ rfl) (by decide)
      ⟨not_between fun x => by cases x <;> rfl, by decide, not_covers fun x => by cases x <;> rfl⟩ rfl
  ⟨_, run, rfl, rfl, run.ranges_nest⟩

/-- A fold around two others has only the first of them below it, and the second one, which is
inside its lines, for its next sibling. -/
theorem add_around_fails : ∃ s,
    FoldRun (fun _ _ => True) (.new ⟨[1, 1, 1, 1, 1, 1, 1], none⟩) s ∧
    ¬ s.tree.WellNested (· ∈ s.live) := by
  refine ⟨_, .step (.add 0 6) (.step (.add 4 5) (.step (.add 1 2) .refl (by decide) trivial rfl)
    (by decide) trivial rfl) (by decide) trivial rfl, fun h => ?_⟩
  have := h.siblings (p := none) nofun (show Chain _ _ [2, 1] from ⟨rfl, rfl, rfl⟩)
  exact absurd this (by decide)

/-- From any nested folds, as long as no fold below a collapsed one is expanded, be it because it
is removed, the tag is on the lines that the collapsed folds hide; and a fold that is expanded
leaves hidden what the collapsed folds below it hide. -/
theorem hidden (h : s.Holds f) (hn : s.tree.NestedFolds f) (hr : s.tree.Right f)
    (run : FoldRun (fun t op => op.Linking t ∧ op.Nesting t ∧ op.Showing t) s t) :
    t.Hidden ∧
    (∀ op : FoldOp, op.Legal t.live → op.Linking t.tree → (op.run t.tree).isSome) ∧
    ∀ x ∈ t.live, (∀ y, t.tree.Descendant x y → t.tree.collapsed y = false) →
      ∃ u tag, t.tree.expand x = some u ∧ u.buffer.tag = some tag ∧
        ∀ i < t.tree.buffer.size, t.tree.getStart x ≤ lineAt t.tree.buffer.lines i →
          lineAt t.tree.buffer.lines i ≤ t.tree.getEnd x →
          (tag i = true ↔ ∃ y ∈ t.live, t.tree.Descendant y x ∧ t.tree.collapsed y = true ∧
            t.tree.getStart y + 1 ≤ lineAt t.tree.buffer.lines i ∧
            lineAt t.tree.buffer.lines i ≤ t.tree.getEnd y) := by
  obtain ⟨g, hg, hng, hright⟩ := run.nested h hn fun _ _ hok => ⟨hok.1, hok.2.1⟩
  have hrg := hright hr fun _ _ hok => hok.2.2
  refine ⟨?_, fun op hlegal hlink => ?_, fun x hx hout => ?_⟩
  · obtain ⟨tag, htag, heq⟩ := hrg
    exact ⟨tag, htag, fun i hi => (heq i hi).trans hg.hides_iff⟩
  · obtain ⟨u, new, g, heq, -⟩ := hg.step hlegal hlink
    simp [heq]
  · have hx := hg.live.mem_iff.1 hx
    obtain ⟨u, heq, hs, hc, hru⟩ := hg.tree.expand hx
    obtain ⟨tag, htag, hu⟩ := hru hng (fun _ => hg.tree.outermost hng hx hout) hrg
    refine ⟨u, tag, heq, htag, fun i hi hlo hhi => ?_⟩
    rw [hu i (by rwa [FoldBuffer.size, hs.lines]), hs.lines]
    generalize ((lineAt t.tree.buffer.lines i : ℕ) : ℤ) = l at hlo hhi
    rw [FoldTree.getStart_of_live (hg.tree.live x hx)] at hlo
    rw [FoldTree.getEnd_of_live (hg.tree.live x hx)] at hhi
    constructor
    · rintro ⟨y, hy, hcy, hlt, hle⟩
      rw [hs.start] at hlt
      rw [hs.stop] at hle
      have hxy : y ≠ x := by
        rintro rfl
        simp [hc, assign] at hcy
      have hcy : t.tree.collapsed y = true := by simpa [hc, assign, hxy.symm] using hcy
      have hylive := hg.tree.live y hy
      refine ⟨y, hg.live.mem_iff.2 hy, ?_, hcy, ?_, ?_⟩
      · rcases hg.tree.below hng hx hy with heq | hd | hor
        · exact absurd heq hxy
        · exact hd
        · have := hg.tree.outermost hng hx hout y hy hcy
          omega
      · rw [FoldTree.getStart_of_live hylive]
        omega
      · rwa [FoldTree.getEnd_of_live hylive]
    · rintro ⟨y, hy, hd, hcy, hlt, hle⟩
      have hy := hg.live.mem_iff.1 hy
      have hylive := hg.tree.live y hy
      rw [FoldTree.getStart_of_live hylive] at hlt
      rw [FoldTree.getEnd_of_live hylive] at hle
      have hxy : x ≠ y := by
        rintro rfl
        simp [hout x hd] at hcy
      refine ⟨y, hy, by simpa [hc, assign, hxy] using hcy, ?_, by rwa [hs.stop]⟩
      rw [hs.start]
      omega

/-- A collapsed fold, on the lines 1 to 2, below another one, on the lines 0 to 3. -/
def collapsedPair : FoldState where
  tree :=
    { folds := some 0
      nFolds := 1
      parent := fun x => if x = 1 then some 0 else none
      prev := fun _ => none
      next := fun _ => none
      children := fun x => if x = 0 then some 1 else none
      nChildren := fun x => if x = 0 then 1 else 0
      start := fun x => x
      stop := fun x => 3 - x
      collapsed := fun _ => true
      deleted := fun _ => false
      fresh := 2
      buffer := ⟨[1, 1, 1, 1], some fun i => 1 ≤ i⟩ }
  live := [0, 1]

theorem collapsedPair_holds : collapsedPair.Holds (node 0 (node 1 nil nil) nil) ∧
    collapsedPair.tree.NestedFolds (node 0 (node 1 nil nil) nil) ∧
    collapsedPair.tree.Right (node 0 (node 1 nil nil) nil) := by
  refine ⟨⟨⟨⟨⟨rfl, ⟨rfl, trivial, trivial⟩, trivial⟩, rfl, rfl, by decide⟩, by decide, by decide⟩,
    .refl _⟩, ?_, ?_⟩
  · exact ⟨by decide, by decide, by decide, ⟨by decide, by decide, by decide, trivial, trivial⟩, trivial⟩
  · refine ⟨_, rfl, fun i (hi : i < 4) => ?_⟩
    obtain rfl | rfl | rfl | rfl : i = 0 ∨ i = 1 ∨ i = 2 ∨ i = 3 := by omega
    all_goals simp [FoldTree.Hides, Covered, collapsedPair, lineAt]

/-- Expanding the outer fold. -/
theorem hidden_pair : ∃ t, FoldRun (fun t op => op.Linking t ∧ op.Nesting t ∧ op.Showing t)
    collapsedPair t ∧ t.tree.collapsed 0 = false ∧ t.tree.collapsed 1 = true ∧ t.Hidden := by
  have ⟨h, hn, hr⟩ := collapsedPair_holds
  have hroot (y : FoldPtr) : ¬ collapsedPair.tree.Descendant 0 y := fun hy => by
    obtain ⟨z, hz, -⟩ := Relation.TransGen.head'_iff.1 hy
    exact nomatch (show (none : Option FoldPtr) = some z from hz)
  have run : FoldRun (fun t op => op.Linking t ∧ op.Nesting t ∧ op.Showing t) collapsedPair _ :=
    .step (.expand 0) .refl (by decide) ⟨trivial, trivial, fun y hy => absurd hy (hroot y)⟩ rfl
  exact ⟨_, run, rfl, rfl, (hidden h hn hr run).1⟩

/-- Removing the inner fold shows its lines, which the outer one hides. -/
theorem remove_inner_fails : ∃ s f t, s.Holds f ∧ s.tree.NestedFolds f ∧ s.tree.Right f ∧
    FoldRun (fun t op => ∀ x, op = .expand x → op.Showing t) s t ∧ ¬ t.Hidden := by
  have ⟨h, hn, hr⟩ := collapsedPair_holds
  refine ⟨_, _, _, h, hn, hr, .step (.remove 1) .refl (by decide) nofun rfl, ?_⟩
  rintro ⟨tag, htag, heq⟩
  have := (heq 1 (by decide)).2 ⟨0, by decide, by decide, by decide, by decide⟩
  obtain rfl := Option.some.inj htag
  exact absurd this (by decide)

end FoldRun

end Medit
