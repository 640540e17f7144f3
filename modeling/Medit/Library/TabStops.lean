import Mathlib.Tactic.Linarith
import Mathlib.Tactic.Ring

/-!
# Columns and tab stops

The columns of a text that is laid out on one line with tab stops every `w` columns.

## Main definitions

* `next` — the column after a character.
* `column` — the column after a text.
* `nominal` — the columns of a text whose tabs are all as wide as a tab can be.

## Main results

* `column_take_le` — what characters add to the column at least.
* `column_add_mul` — a whole number of tab stops to the left does not matter.
* `column_le_nominal` — no text is wider than its nominal width.
-/

namespace TabStops

variable {w : ℕ}

/-- The column after a character that is put at `col`. -/
def next (w col : ℕ) (c : Char) : ℕ := if c = '\t' then col + (w - col % w) else col + 1

/-- The column after a text that is put at `col`. -/
def column (w col : ℕ) (text : List Char) : ℕ := text.foldl (next w) col

/-- The width of a text with tabs that are `w` columns wide. -/
def nominal (w : ℕ) : List Char → ℕ
  | [] => 0
  | c :: text => (if c = '\t' then w else 1) + nominal w text

@[simp] theorem column_nil (col : ℕ) : column w col [] = col := rfl

@[simp] theorem column_cons (col : ℕ) (c : Char) (text : List Char) :
    column w col (c :: text) = column w (next w col c) text := rfl

theorem column_append (col : ℕ) (text text' : List Char) :
    column w col (text ++ text') = column w (column w col text) text' := List.foldl_append

@[simp] theorem nominal_nil : nominal w [] = 0 := rfl

@[simp] theorem nominal_append (text text' : List Char) :
    nominal w (text ++ text') = nominal w text + nominal w text' := by
  induction text with
  | nil => simp
  | cons c text ih => simp [nominal, ih, add_assoc]

theorem next_of_ne {c : Char} (hc : c ≠ '\t') (col : ℕ) : next w col c = col + 1 := if_neg hc

/-- A tab leads to the next tab stop. -/
theorem next_tab (hw : 0 < w) (col : ℕ) : next w col '\t' = (col / w + 1) * w := by
  have hmod := Nat.mod_lt col hw
  have hdiv := Nat.div_add_mod' col w
  have hmul : (col / w + 1) * w = col / w * w + w := by ring
  simp only [next, if_true]
  omega

theorem lt_next (hw : 0 < w) (col : ℕ) (c : Char) : col < next w col c := by
  have hmod := Nat.mod_lt col hw
  unfold next
  split_ifs <;> omega

theorem column_le (hw : 0 < w) (col : ℕ) (text : List Char) : col ≤ column w col text := by
  induction text generalizing col with
  | nil => exact le_rfl
  | cons c text ih => exact (lt_next hw col c).le.trans (ih _)

/-- Every character has a column at least. -/
theorem add_length_le_column (hw : 0 < w) (col : ℕ) (text : List Char) :
    col + text.length ≤ column w col text := by
  induction text generalizing col with
  | nil => exact le_rfl
  | cons c text ih =>
    have hnext := lt_next hw col c
    have hrest := ih (next w col c)
    rw [column_cons, List.length_cons]
    omega

/-- What the characters between two places of a text add to the column at least. -/
theorem column_take_le (hw : 0 < w) (col : ℕ) {text : List Char} {p q : ℕ} (hpq : p ≤ q)
    (hq : q ≤ text.length) : column w col (text.take p) + (q - p) ≤ column w col (text.take q) := by
  have hsplit : text.take q = text.take p ++ (text.drop p).take (q - p) := by
    rw [← List.take_add, Nat.add_sub_cancel' hpq]
  have hle := add_length_le_column hw (column w col (text.take p)) ((text.drop p).take (q - p))
  rw [List.length_take, List.length_drop, Nat.min_eq_left (by omega)] at hle
  rwa [hsplit, column_append]

/-- A text without tabs has one column for each character. -/
theorem column_of_notMem {text : List Char} (h : '\t' ∉ text) (col : ℕ) :
    column w col text = col + text.length := by
  induction text generalizing col with
  | nil => rfl
  | cons c text ih =>
    simp only [List.mem_cons, not_or] at h
    rw [column_cons, next_of_ne (Ne.symm h.1), ih h.2, List.length_cons]
    omega

theorem nominal_of_notMem {text : List Char} (h : '\t' ∉ text) : nominal w text = text.length := by
  induction text with
  | nil => rfl
  | cons c text ih =>
    simp only [List.mem_cons, not_or] at h
    rw [nominal, if_neg (Ne.symm h.1), ih h.2, List.length_cons, Nat.add_comm]

@[simp] theorem column_spaces (col n : ℕ) : column w col (List.replicate n ' ') = col + n := by
  rw [column_of_notMem (by simp [List.mem_replicate]), List.length_replicate]

/-- Tabs lead from one tab stop to the next. -/
theorem column_tabs (hw : 0 < w) (k n : ℕ) :
    column w (k * w) (List.replicate n '\t') = (k + n) * w := by
  induction n generalizing k with
  | zero => rfl
  | succ n ih =>
    rw [List.replicate_succ, column_cons, next_tab hw, Nat.mul_div_cancel _ hw, ih]
    ring

/-- A whole number of tab stops to the left does not matter. -/
theorem column_add_mul (col k : ℕ) (text : List Char) :
    column w (col + k * w) text = column w col text + k * w := by
  induction text generalizing col with
  | nil => rfl
  | cons c text ih =>
    have hnext : next w (col + k * w) c = next w col c + k * w := by
      unfold next
      split_ifs
      · rw [Nat.add_mul_mod_self_right]
        omega
      · omega
    rw [column_cons, hnext, ih, column_cons]

theorem column_mul (k : ℕ) (text : List Char) :
    column w (k * w) text = column w 0 text + k * w := by
  simpa using column_add_mul 0 k text

/-- Behind its first tab, a text is at the same place for all columns up to a tab stop. -/
theorem column_spaces_tab (hw : 0 < w) (col k : ℕ) (text : List Char) :
    column w col (List.replicate k ' ' ++ '\t' :: text) =
      column w 0 text + ((col + k) / w + 1) * w := by
  rw [column_append, column_spaces, column_cons, next_tab hw, column_mul]

/-- No text is wider than its nominal width. -/
theorem column_le_nominal (col : ℕ) (text : List Char) :
    column w col text ≤ col + nominal w text := by
  induction text generalizing col with
  | nil => exact le_rfl
  | cons c text ih =>
    refine (ih _).trans ?_
    simp only [next, nominal]
    split_ifs <;> omega

end TabStops
