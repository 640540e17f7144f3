import Mathlib.Data.List.Nodup
import Mathlib.Data.List.Range
import Medit.Library.CharLines

/-!
# Numbers of lines

The lines of a text that have something on them or an end, by the places where they start.

## Main definitions

* `lineStarts` — where the lines of a text start. What follows a final end of a line is no line.
* `lineNumber` — `gtk_text_iter_get_line`.
* `lineText` — the text of a line.

## Main results

* `getElem?_lineNumber` — the number of a line is its place among the starts.
* `getElem?_one`, `getElem?_last` — the second and the last line.
-/

namespace CharLines

/-- Where the lines of a text start. -/
def lineStarts (t : List Char) : List ℕ := (List.range t.length).filter (startsLine t)

/-- `gtk_text_iter_get_line`: how many lines start behind the first one. -/
def lineNumber (t : List Char) (pos : ℕ) : ℕ :=
  (List.range pos).countP fun i => startsLine t (i + 1)

/-- The text of the line that starts at a place, without its end. -/
def lineText (t : List Char) (start : ℕ) : List Char := untilDelim (t.drop start)

variable {t : List Char} {pos start : ℕ}

@[simp] theorem startsLine_zero (t : List Char) : startsLine t 0 = true := rfl

@[simp] theorem lineNumber_zero (t : List Char) : lineNumber t 0 = 0 := rfl

theorem lineNumber_succ (t : List Char) (pos : ℕ) :
    lineNumber t (pos + 1) = lineNumber t pos + if startsLine t (pos + 1) then 1 else 0 := by
  rw [lineNumber, List.range_succ, List.countP_append, List.countP_singleton, ← lineNumber]

/-- Where no line starts in between, the number is the same. -/
theorem lineNumber_eq_of_not_startsLine (hle : start ≤ pos)
    (h : ∀ p, start < p → p ≤ pos → startsLine t p = false) :
    lineNumber t pos = lineNumber t start := by
  induction pos, hle using Nat.le_induction with
  | base => rfl
  | succ pos hle ih =>
    have hnext : startsLine t (pos + 1) = false := h (pos + 1) (by omega) le_rfl
    rw [lineNumber_succ, hnext, ih fun p hp hle => h p hp (by omega)]
    simp

theorem lineNumber_lineStart (t : List Char) (pos : ℕ) :
    lineNumber t (lineStart t pos) = lineNumber t pos := by
  refine (lineNumber_eq_of_not_startsLine (lineStart_le t pos) fun p hp hle => ?_).symm
  exact startsLine_of_lineStart_lt hp hle

/-- The lines in front of a position, and the one that it starts. -/
theorem countP_range_succ (t : List Char) (pos : ℕ) :
    (List.range (pos + 1)).countP (startsLine t) = lineNumber t pos + 1 := by
  rw [List.range_succ_eq_map, List.countP_cons, List.countP_map]
  simp [lineNumber, Function.comp_def]

theorem length_lineStarts (h : t ≠ []) :
    (lineStarts t).length = lineNumber t (t.length - 1) + 1 := by
  have hpos := List.length_pos_iff.2 h
  have hrange := countP_range_succ t (t.length - 1)
  rwa [Nat.sub_add_cancel hpos, List.countP_eq_length_filter] at hrange

theorem mem_lineStarts : pos ∈ lineStarts t ↔ pos < t.length ∧ startsLine t pos := by
  simp [lineStarts]

theorem nodup_lineStarts (t : List Char) : (lineStarts t).Nodup := List.nodup_range.filter _

/-- The number of a line is its place among the starts. -/
theorem getElem?_lineNumber (hpos : pos < t.length) (hstart : startsLine t pos) :
    (lineStarts t)[lineNumber t pos]? = some pos := by
  have hcount := countP_range_succ t pos
  rw [List.range_succ, List.countP_append, List.countP_singleton, hstart, if_pos rfl,
    Nat.add_right_cancel_iff, List.countP_eq_length_filter] at hcount
  obtain ⟨n, hn⟩ := Nat.exists_eq_add_of_lt hpos
  rw [lineStarts, hn, Nat.add_assoc, List.range_add, List.filter_append, ← hcount,
    List.getElem?_append_right le_rfl, Nat.sub_self, List.range_succ_eq_map, List.map_cons,
    Nat.add_zero, List.filter_cons_of_pos hstart]
  rfl

theorem getElem?_zero (h : t ≠ []) : (lineStarts t)[0]? = some 0 :=
  getElem?_lineNumber (List.length_pos_iff.2 h) rfl

/-- The second line. -/
theorem getElem?_one (t : List Char) : (lineStarts t)[1]? = forwardLine t 0 := by
  rcases eq_or_ne t [] with rfl | hne
  · rfl
  have hbetween {pos : ℕ} (hlt : pos < nextLine t 0) : lineNumber t pos = 0 := by
    refine lineNumber_eq_of_not_startsLine (Nat.zero_le pos) fun p hp hle => ?_
    exact startsLine_of_lt_nextLine (Nat.zero_le _) hp (by omega)
  unfold forwardLine
  split
  · next hlt =>
    have hpos := lt_nextLine (t := t) (List.length_pos_iff.2 hne)
    have hstart : startsLine t (nextLine t 0) = true :=
      (startsLine_nextLine (Nat.zero_le _)).resolve_right (by omega)
    obtain ⟨n, hn⟩ := Nat.exists_eq_add_of_lt hpos
    rw [Nat.zero_add] at hn
    have hnumber : lineNumber t (nextLine t 0) = 1 := by
      rw [hn] at hstart
      rw [hn, lineNumber_succ, hbetween (by omega), hstart]
      rfl
    rw [← hnumber]
    exact getElem?_lineNumber hlt hstart
  · next hge =>
    have hlen := length_lineStarts hne
    have hpos := List.length_pos_iff.2 hne
    rw [hbetween (by omega)] at hlen
    exact List.getElem?_eq_none (by omega)

/-- The last line. -/
theorem getElem?_last (h : t ≠ []) :
    (lineStarts t)[(lineStarts t).length - 1]? = some (lineStart t (t.length - 1)) := by
  have hpos := List.length_pos_iff.2 h
  have hle := lineStart_le t (t.length - 1)
  rw [length_lineStarts h, Nat.add_sub_cancel, ← lineNumber_lineStart]
  exact getElem?_lineNumber (by omega) (startsLine_lineStart ..)

/-- At the start of a line nothing is on it where it ends. -/
theorem endsLine_iff_lineText (h : startsLine t start) :
    endsLine t start ↔ lineText t start = [] := by
  rw [lineText, untilDelim_eq_nil, List.head?_drop, endsLine]
  cases hc : t[start]? with
  | none => simp
  | some c =>
    have hcrlf : ¬(c = '\n' ∧ start ≠ 0 ∧ t[start - 1]? = some '\r') := by
      rintro ⟨rfl, hne, hr⟩
      simp [startsLine, hne, hr, hc] at h
    simp only [Option.all_some, Bool.and_eq_true, Bool.not_eq_true', and_iff_left_iff_imp]
    intro _
    simpa [and_assoc] using hcrlf

theorem forwardToLineEnd_of_lineText (h : lineText t start ≠ []) :
    forwardToLineEnd t start = start + (lineText t start).length := by
  unfold lineText at h ⊢
  rw [forwardToLineEnd, if_pos h]

end CharLines
