import Mathlib.Algebra.Group.Nat.Defs
import Mathlib.Algebra.GroupWithZero.Nat
import Mathlib.Algebra.Ring.Int.Defs
import Medit.Fold.Links
import Medit.Fold.Forest

/-!
# Expanding a fold

`expand_check_visible` takes the tag off gap by gap. On nested folds what it takes the tag off is
all lines of the fold but those that a collapsed fold hides.
-/

namespace Medit

open LinkedForest LinkedForest.Forest

/-! ## Lines and characters -/

/-- The line the character at the offset `i` is on. -/
def lineAt : List ℕ → ℕ → ℕ
  | [], _ => 0
  | n :: lines, i => if i < n then 0 else lineAt lines (i - n) + 1

theorem sum_take_le_iff {lines : List ℕ} {i a : ℕ} (hi : i < lines.sum) :
    (lines.take a).sum ≤ i ↔ a ≤ lineAt lines i := by
  induction lines generalizing i a with
  | nil => simp at hi
  | cons n lines ih =>
    cases a with
    | zero => simp
    | succ a =>
      rw [lineAt, List.take_succ_cons, List.sum_cons]
      split
      · omega
      · next hn =>
        rw [List.sum_cons] at hi
        have := ih (i := i - n) (a := a) (by omega)
        omega

theorem lineAt_lt {lines : List ℕ} {i : ℕ} (hi : i < lines.sum) : lineAt lines i < lines.length := by
  by_contra hle
  have := (sum_take_le_iff (a := lines.length) hi).2 (by omega)
  rw [List.take_length] at this
  omega

namespace FoldBuffer

variable {b c d : FoldBuffer} {start stop : ℤ} {i : ℕ} {S T : ℤ → Prop}

/-- The number of characters. -/
def size (b : FoldBuffer) : ℕ := b.lines.sum

theorem between_iff (hstart : 0 ≤ start) (hle : start ≤ stop) (hi : i < b.size) :
    b.between start stop i ↔ start ≤ lineAt b.lines i ∧ (lineAt b.lines i : ℤ) < stop := by
  have h1 := sum_take_le_iff (a := start.toNat) hi
  have h2 := sum_take_le_iff (a := stop.toNat) hi
  rw [between, Int.min_eq_left hle, Int.max_eq_right hle]
  rw [Bool.and_eq_true, decide_eq_true_iff, decide_eq_true_iff, lineOffset, lineOffset]
  omega

/-- The buffer `c` is `b` without the tag on the characters of the lines in `S`. -/
structure Untagged (b c : FoldBuffer) (S : ℤ → Prop) : Prop where
  lines : c.lines = b.lines
  isSome : c.tag.isSome = b.tag.isSome
  tag : ∀ {x y}, b.tag = some x → c.tag = some y → ∀ i < b.size,
    y i = true ↔ x i = true ∧ ¬ S (lineAt b.lines i)

namespace Untagged

theorem trans (h : Untagged b c S) (h' : Untagged c d T) : Untagged b d fun l => S l ∨ T l := by
  refine ⟨h'.lines.trans h.lines, h'.isSome.trans h.isSome, fun {x z} hx hz i hi => ?_⟩
  obtain ⟨y, hy⟩ := Option.isSome_iff_exists.1 (h.isSome.trans (by simp [hx]))
  rw [h'.tag hy hz i (by rwa [size, h.lines]), h.tag hx hy i hi, h.lines, not_or, and_assoc]

theorem congr (h : Untagged b c S) (hST : ∀ l, S l ↔ T l) : Untagged b c T := by
  obtain rfl : S = T := funext fun l => propext (hST l)
  exact h

theorem removeTag (hstart : 0 ≤ start) (hle : start ≤ stop) :
    Untagged b (b.removeTag start stop) fun l => start ≤ l ∧ l < stop := by
  refine ⟨rfl, by simp [FoldBuffer.removeTag], fun {x y} hx hy i hi => ?_⟩
  obtain rfl : (fun i => x i && !b.between start stop i) = y := by
    simpa [FoldBuffer.removeTag, hx] using hy
  rw [← between_iff hstart hle hi]
  simp

end Untagged

end FoldBuffer

namespace FoldTree

variable {t u : FoldTree} {p q : Option FoldPtr} {x c : FoldPtr} {f k r : Forest FoldPtr} {n : ℕ}
  {b : FoldBuffer} {lo hi : ℤ}

/-- A fold hides the line. -/
abbrev Hides (t : FoldTree) (f : Forest FoldPtr) (l : ℤ) : Prop :=
  Covered t.start t.stop t.collapsed f l

/-- The first line after `q`, or after the start of `x`. -/
def lineAfter (t : FoldTree) (x : FoldPtr) : Option FoldPtr → ℤ
  | some w => t.stop w + 1
  | none => t.start x + 1

theorem lineAfter_some {w : FoldPtr} : t.lineAfter x (some w) = t.stop w + 1 := rfl

/-- `expand_check_visible`, given what its loop does. -/
theorem expandCheckVisible_of_children (hkids : t.children x = k.head) (hx : t.deleted x = false)
    (hloop : ∀ {c b}, k.head = some c → ∃ b', t.expandChildren n x c b = some b' ∧
      b'.lines = b.lines ∧ (Nested t.start t.stop (t.start x + 1) (t.stop x) k → 0 ≤ t.start x + 1 →
        b.Untagged b' fun l => t.start x + 1 ≤ l ∧ l ≤ t.stop x ∧ ¬ t.Hides k l)) :
    ∃ b', t.expandCheckVisible (n + 1) x b = some b' ∧ b'.lines = b.lines ∧
      (Nested t.start t.stop (t.start x + 1) (t.stop x) k → 0 ≤ t.start x → t.start x < t.stop x →
        b.Untagged b' fun l => t.start x ≤ l ∧ l ≤ t.stop x ∧ ¬ t.Hides (node x k nil) l) := by
  have hstart : t.getStart x = t.start x := by simp [getStart, hx]
  have hstop : t.getEnd x = t.stop x := by simp [getEnd, hx]
  have hnil (l : ℤ) : ¬ t.Hides nil l := not_covered_nil
  rw [expandCheckVisible]
  simp only [hstart, hstop, hkids]
  split
  · next hc =>
    refine ⟨_, rfl, rfl, fun hn h0 hlt => (FoldBuffer.Untagged.removeTag h0 (by omega)).congr fun l => ?_⟩
    have := fun h : t.Hides k l => hn.of_covered h
    simp only [Hides, covered_node, hc, true_and]
    have := hnil l
    grind
  · next hc =>
    have hc : t.collapsed x = false := by simpa using hc
    have hcov (l : ℤ) : t.Hides (node x k nil) l ↔ t.Hides k l := by
      simp [Hides, covered_node, hc, not_covered_nil]
    cases k with
    | nil =>
      refine ⟨_, rfl, rfl, fun hn h0 hlt => ((FoldBuffer.Untagged.removeTag h0 (by omega)).trans
        (.removeTag (by omega) (by omega))).congr fun l => ?_⟩
      have := hnil l
      grind
    | node y k' r' =>
      obtain ⟨b', heq, hlines, huntag⟩ := hloop (b := b.removeTag (t.start x) (t.start x + 1)) rfl
      refine ⟨b', heq, hlines, fun hn h0 hlt =>
        ((FoldBuffer.Untagged.removeTag h0 (by omega)).trans (huntag hn (by omega))).congr fun l => ?_⟩
      have := fun h : t.Hides (node y k' r') l => hn.of_covered h
      grind

theorem expandChildren_spec (hl : Linked t.heap (some x) q f) (hf : f.head = some c)
    (hlive : ∀ y ∈ f.nodes, t.deleted y = false) (hx : t.deleted x = false)
    (hq : ∀ w, q = some w → t.deleted w = false) (hn : 2 * f.nodes.length ≤ n) :
    ∃ b', t.expandChildren n x c b = some b' ∧ b'.lines = b.lines ∧
      (Nested t.start t.stop (t.lineAfter x q) (t.stop x) f → 0 ≤ t.lineAfter x q →
        b.Untagged b' fun l => t.lineAfter x q ≤ l ∧ l ≤ t.stop x ∧ ¬ t.Hides f l) := by
  induction f generalizing x q c n b with
  | nil => simp at hf
  | node y k r ihk ihr =>
    obtain rfl : y = c := by simpa using hf
    obtain ⟨hy, hk, hr⟩ := hl
    simp only [heap_cell, Cell.mk.injEq] at hy
    obtain ⟨-, hprev, hnext, hkids, -⟩ := hy
    simp only [nodes_node, List.length_cons, List.length_append] at hn
    obtain ⟨n, rfl⟩ : ∃ m, n = m + 2 := ⟨n - 2, by omega⟩
    have hydel : t.deleted y = false := hlive y (by simp)
    have hstart : t.getStart y = t.start y := by simp [getStart, hydel]
    have hstop : t.getEnd y = t.stop y := by simp [getEnd, hydel]
    have hlo : t.startLine x y = t.lineAfter x q := by
      rw [startLine, hprev]
      cases q with
      | none => simp [lineAfter, getStart, hx]
      | some w => simp [lineAfter, getEnd, hq w rfl]
    rw [expandChildren, hlo, hstart]
    obtain ⟨b', heq, hlines, huntag⟩ := expandCheckVisible_of_children (n := n)
      (b := b.removeTag (t.lineAfter x q) (t.start y + 1)) hkids hydel fun hc =>
        ihk (n := n) hk hc (fun z hz => hlive z (by simp [hz])) hydel nofun (by omega)
    simp only [heq, hnext]
    have hcov (l : ℤ) : t.Hides (node y k r) l ↔ t.Hides (node y k nil) l ∨ t.Hides r l := by
      simp [Hides, covered_node, not_covered_nil, or_assoc]
    have hbounds (h4 : Nested t.start t.stop (t.start y + 1) (t.stop y) k)
        (h2 : t.start y < t.stop y) {l : ℤ} (h : t.Hides (node y k nil) l) :
        t.start y < l ∧ l ≤ t.stop y := by
      rcases covered_node.1 h with h | h | h
      · exact h.2
      · have := h4.of_covered h
        omega
      · exact absurd h not_covered_nil
    cases r with
    | nil =>
      have hnil (l : ℤ) : ¬ t.Hides nil l := not_covered_nil
      have hxstop : t.getEnd x = t.stop x := by simp [getEnd, hx]
      simp only [head_nil, hstop, hxstop]
      split
      · refine ⟨_, rfl, hlines, fun hn h0 => ?_⟩
        obtain ⟨h1, h2, h3, h4, -⟩ := hn
        refine (((FoldBuffer.Untagged.removeTag h0 (by omega)).trans (huntag h4 (by omega) h2)).trans
          (.removeTag (by omega) (by omega))).congr fun l => ?_
        have := hbounds h4 h2 (l := l)
        have := hcov l
        grind
      · refine ⟨_, rfl, hlines, fun hn h0 => ?_⟩
        obtain ⟨h1, h2, h3, h4, -⟩ := hn
        refine ((FoldBuffer.Untagged.removeTag h0 (by omega)).trans
          (huntag h4 (by omega) h2)).congr fun l => ?_
        have := hbounds h4 h2 (l := l)
        have := hcov l
        grind
    | node z k' r' =>
      obtain ⟨b'', heq', hlines', huntag'⟩ := ihr (n := n + 1) (b := b') hr rfl
        (fun w hw => hlive w (List.mem_cons_of_mem _ (List.mem_append_right _ hw))) hx
        (by rintro w ⟨⟩; exact hydel) (by omega)
      refine ⟨b'', heq', hlines'.trans hlines, fun hn h0 => ?_⟩
      obtain ⟨h1, h2, h3, h4, h5⟩ := hn
      refine (((FoldBuffer.Untagged.removeTag h0 (by omega)).trans (huntag h4 (by omega) h2)).trans
        (huntag' h5 (by simp only [lineAfter]; omega))).congr fun l => ?_
      have := hbounds h4 h2 (l := l)
      have := fun h : t.Hides (node z k' r') l => h5.of_covered h
      rw [hcov l, lineAfter_some]
      grind

end FoldTree

end Medit
