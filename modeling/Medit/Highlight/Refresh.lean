import Medit.Highlight.TextRegion

/-!
# What has to be highlighted again

Models the refresh region of `gtksourcecontextengine.c`: text that was analysed again is put in it,
and taken out when it is highlighted. The region stands for one flag for each character, which is
set when the character has to be highlighted again.

## Main definitions

* `ContextEngine.refreshRange`, `ContextEngine.ensureHighlighted` — the functions of these names.
* `Flags` — one flag for each character.
* `Run` — runs of the engine, with the flags beside it.

## Main results

* `Run.highlights_stale` — the region is right about every character.
-/

namespace Medit.TextRegion

open Intervals

/-- The text and the refresh region of `GtkSourceContextEngine`. -/
structure ContextEngine where
  charCount : ℕ
  refreshRegion : List Subregion

namespace ContextEngine

variable (ce : ContextEngine)

/-- `refresh_range`, when it is told to modify the region. -/
def refreshRange (start stop : ℕ) : ContextEngine :=
  if start = stop then ce else { ce with refreshRegion := add ce.refreshRegion start stop }

/-- `ensure_highlighted`, with the ranges that `highlight_region` is called for. -/
def ensureHighlighted (start stop : ℕ) : List Subregion × ContextEngine :=
  match intersect ce.refreshRegion start stop with
  | none => ([], ce)
  | some region => (region, { ce with refreshRegion := subtract ce.refreshRegion start stop })

/-- `n` characters are inserted in the buffer. -/
def insertText (pos n : ℕ) : ContextEngine :=
  ⟨ce.charCount + n, TextRegion.insertText ce.refreshRegion pos n⟩

/-- Text is deleted from the buffer. -/
def deleteText (start stop : ℕ) : ContextEngine :=
  ⟨ce.charCount - (stop - start), TextRegion.deleteText ce.refreshRegion start stop⟩

end ContextEngine

/-! ## One flag for each character -/

/-- Which characters have to be highlighted again. -/
abbrev Flags := ℕ → Prop

namespace Flags

variable (stale : Flags)

/-- The characters of a range are analysed again. -/
def set (start stop : ℕ) : Flags := fun x => stale x ∨ min start stop ≤ x ∧ x < max start stop

/-- They are highlighted. -/
def clear (start stop : ℕ) : Flags :=
  fun x => stale x ∧ ¬(min start stop ≤ x ∧ x < max start stop)

/-- New characters with a flag of their own. -/
def insert (pos n : ℕ) (flag : Prop) : Flags := fun x =>
  if x < pos then stale x else if x < pos + n then flag else stale (x - n)

/-- Characters go. -/
def delete (start stop : ℕ) : Flags := fun x => stale (if x < start then x else x + (stop - start))

end Flags

/-- Runs of the engine and the flags of its characters. New characters have to be highlighted if
those beside them do. Text is not inserted where subregions touch, which overlap then. -/
inductive Run : ContextEngine → Flags → Prop
  | start (n : ℕ) : Run ⟨n, []⟩ fun _ => False
  | refreshRange {ce : ContextEngine} {stale : Flags} (start stop : ℕ) : Run ce stale →
    start ≤ ce.charCount → stop ≤ ce.charCount →
    Run (ce.refreshRange start stop) (stale.set start stop)
  | ensureHighlighted {ce : ContextEngine} {stale : Flags} (start stop : ℕ) : Run ce stale →
    Run (ce.ensureHighlighted start stop).2 (stale.clear start stop)
  | insertText {ce : ContextEngine} {stale : Flags} (pos n : ℕ) : Run ce stale →
    pos ≤ ce.charCount → ¬ TouchAt ce.refreshRegion pos →
    Run (ce.insertText pos n)
      (stale.insert pos n (∃ s ∈ ce.refreshRegion, s.start ≤ pos ∧ pos ≤ s.stop))
  | deleteText {ce : ContextEngine} {stale : Flags} (start stop : ℕ) : Run ce stale →
    start ≤ stop → stop ≤ ce.charCount → Run (ce.deleteText start stop) (stale.delete start stop)

variable {ce : ContextEngine} {stale : Flags} {start stop pos x : ℕ}

/-- The region is right about the characters of the text. -/
structure Right (ce : ContextEngine) (stale : Flags) : Prop where
  sorted : Sorted ce.refreshRegion
  points : ∀ x, x ∈ points ce.refreshRegion ↔ stale x
  lt : ∀ x, stale x → x < ce.charCount

namespace Right

theorem refreshRange (h : Right ce stale) (hstart : start ≤ ce.charCount)
    (hstop : stop ≤ ce.charCount) : Right (ce.refreshRange start stop) (stale.set start stop) := by
  have hlt : ∀ x, stale.set start stop x → x < ce.charCount := by
    rintro x (hx | hx)
    · exact h.lt x hx
    · omega
  unfold ContextEngine.refreshRange
  split_ifs with heq
  · refine ⟨h.sorted, fun x => (h.points x).trans ⟨.inl, ?_⟩, hlt⟩
    rintro (hx | hx)
    · exact hx
    · omega
  · obtain ⟨hsorted, hpoints⟩ := addRange_spec h.sorted (min_le_max (a := start) (b := stop))
    exact ⟨hsorted, fun x => (hpoints x).trans (or_congr_left (h.points x)), hlt⟩

/-- What is highlighted, and what is left to do. -/
theorem highlighted (h : Right ce stale) (start stop : ℕ) :
    (∀ x, x ∈ Intervals.points (ce.ensureHighlighted start stop).1 ↔
      stale x ∧ min start stop ≤ x ∧ x < max start stop) ∧
    Right (ce.ensureHighlighted start stop).2 (stale.clear start stop) := by
  have hspec := intersectRange_spec h.sorted (min start stop) (max start stop)
  obtain ⟨hsorted, hpoints⟩ := subtractRange_spec h.sorted (min_le_max (a := start) (b := stop))
  have hlt : ∀ x, stale.clear start stop x → x < ce.charCount := fun x hx => h.lt x hx.1
  unfold ContextEngine.ensureHighlighted intersect
  cases hpart : intersectRange ce.refreshRegion (min start stop) (max start stop) with
  | none =>
    simp only [hpart] at hspec
    refine ⟨fun x => ?_, h.sorted, fun x => ?_, hlt⟩
    · rw [← h.points x, mem_points_nil, false_iff]
      exact hspec x
    · rw [h.points x]
      exact ⟨fun hx => ⟨hx, fun hin => hspec x ⟨(h.points x).2 hx, hin⟩⟩, And.left⟩
  | some part =>
    simp only [hpart] at hspec
    refine ⟨fun x => ?_, hsorted, fun x => ?_, hlt⟩
    · rw [← h.points x]
      exact hspec x
    · exact (hpoints x).trans (and_congr_left fun _ => h.points x)

theorem insertText (h : Right ce stale) (hpos : pos ≤ ce.charCount)
    (htouch : ¬ TouchAt ce.refreshRegion pos) (n : ℕ) : Right (ce.insertText pos n)
      (stale.insert pos n (∃ s ∈ ce.refreshRegion, s.start ≤ pos ∧ pos ≤ s.stop)) := by
  obtain ⟨hsorted, hpoints⟩ := insertText_spec h.sorted htouch n
  refine ⟨hsorted, fun x => (hpoints x).trans ?_, fun x hx => ?_⟩
  · unfold Flags.insert
    split_ifs
    · exact h.points x
    · exact Iff.rfl
    · exact h.points _
  · unfold Flags.insert at hx
    simp only [ContextEngine.insertText]
    split_ifs at hx
    · omega
    · omega
    · have := h.lt _ hx
      omega

theorem deleteText (h : Right ce stale) (hle : start ≤ stop) (hstop : stop ≤ ce.charCount) :
    Right (ce.deleteText start stop) (stale.delete start stop) := by
  obtain ⟨hsorted, hpoints⟩ := deleteText_spec h.sorted hle
  refine ⟨hsorted, fun x => (hpoints x).trans (h.points _), fun x hx => ?_⟩
  have := h.lt _ hx
  simp only [ContextEngine.deleteText]
  split_ifs at this <;> omega

end Right

theorem Run.right (h : Run ce stale) : Right ce stale := by
  induction h with
  | start n => exact ⟨.nil, fun x => mem_points_nil, fun x hx => hx.elim⟩
  | refreshRange start stop _ hstart hstop ih => exact ih.refreshRange hstart hstop
  | ensureHighlighted start stop _ ih => exact (ih.highlighted start stop).2
  | insertText pos n _ hpos htouch ih => exact ih.insertText hpos htouch n
  | deleteText start stop _ hle hstop ih => exact ih.deleteText hle hstop

/-- Where subregions touch, inserted text comes into both of them. -/
example : TextRegion.insertText [⟨0, 2⟩, ⟨2, 4⟩] 2 1 = [⟨0, 3⟩, ⟨2, 5⟩] := by decide

end Medit.TextRegion
