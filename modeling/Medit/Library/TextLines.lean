import Mathlib.Data.List.Basic
import Mathlib.Data.List.Infix
import Mathlib.Data.List.Count
import Mathlib.Data.List.TakeWhile

/-!
# The lines of a text

A text is cut into lines at a separator. `lineAt` is a line without its separator and
`lineStart` is where it begins. A position is on the line whose number is the number of separators
before it.

## Main results

* `lineAt_append` — the lines of two texts one after the other.
* `remains_infix` — what is left of a line after a deletion is on the line that `lineAfter` says.
-/

namespace TextLines

variable {α : Type*} [DecidableEq α] (sep : α)

/-- The text from line `n` on. -/
def dropLines : ℕ → List α → List α
  | 0, cs => cs
  | _ + 1, [] => []
  | n + 1, c :: cs => if c = sep then dropLines n cs else dropLines (n + 1) cs

attribute [elab_as_elim] dropLines.induct_unfolding

/-- Line `n`, without its end. -/
def lineAt (text : List α) (n : ℕ) : List α := (dropLines sep n text).takeWhile (· ≠ sep)

/-- The position of the first character of line `n`. -/
def lineStart (text : List α) (n : ℕ) : ℕ := text.length - (dropLines sep n text).length

/-- The line of a position. -/
def lineOf (text : List α) (pos : ℕ) : ℕ := (text.take pos).count sep

/-- Whether a position is the first one of its line. -/
def startsLine (text : List α) (pos : ℕ) : Bool := (text.take pos).getLast?.all (· = sep)

variable {sep} {x y d : List α}

@[simp] theorem dropLines_zero : dropLines sep 0 x = x := by rw [dropLines]

@[simp] theorem dropLines_nil (n : ℕ) : dropLines sep n [] = [] := by cases n <;> rfl

theorem dropLines_append_of_le {n : ℕ} (h : n ≤ x.count sep) :
    dropLines sep n (x ++ y) = dropLines sep n x ++ y := by
  induction x generalizing n with
  | nil =>
    obtain rfl : n = 0 := by simpa using h
    simp
  | cons c cs ih =>
    cases n with
    | zero => simp
    | succ n =>
      simp only [List.cons_append, dropLines]
      by_cases hc : c = sep
      · subst hc
        simp only [List.count_cons_self] at h
        simp only [if_true]
        exact ih (by omega)
      · rw [List.count_cons_of_ne (by simpa using hc)] at h
        simp only [hc, if_false]
        exact ih h

theorem dropLines_append_add (n : ℕ) :
    dropLines sep (x.count sep + (n + 1)) (x ++ y) = dropLines sep (n + 1) y := by
  induction x with
  | nil => simp
  | cons c cs ih =>
    have hsucc : ∀ k, k + (n + 1) = (k + n) + 1 := fun _ => rfl
    rw [hsucc, List.cons_append, dropLines, ← hsucc]
    by_cases hc : c = sep
    · subst hc
      rw [if_pos rfl, List.count_cons_self, ← ih]
      congr 1
      omega
    · rw [if_neg hc, List.count_cons_of_ne (by simpa using hc), ih]

/-- The last line of a text. -/
theorem dropLines_count_notMem (sep : α) (x : List α) : sep ∉ dropLines sep (x.count sep) x := by
  induction x with
  | nil => simp
  | cons c cs ih =>
    by_cases hc : c = sep
    · subst hc
      simpa [dropLines] using ih
    · rw [List.count_cons_of_ne (by simpa using hc)]
      cases hn : cs.count sep with
      | zero =>
        have := List.count_eq_zero.1 hn
        simp [this, Ne.symm hc]
      | succ n => simpa [dropLines, hc, hn] using ih

/-- Before the end of line `n` there are `n` separators. -/
theorem sep_mem_dropLines {n : ℕ} (h : n < x.count sep) : sep ∈ dropLines sep n x := by
  induction x generalizing n with
  | nil => simp at h
  | cons c cs ih =>
    cases n with
    | zero => exact List.count_pos_iff.1 h
    | succ n =>
      by_cases hc : c = sep
      · subst hc
        simp only [List.count_cons_self] at h
        simpa [dropLines] using ih (by omega)
      · rw [List.count_cons_of_ne (by simpa using hc)] at h
        simpa [dropLines, hc] using ih h

theorem length_dropLines_le (sep : α) (x : List α) (n : ℕ) : (dropLines sep n x).length ≤ x.length := by
  induction x generalizing n with
  | nil => simp
  | cons c cs ih =>
    cases n with
    | zero => simp
    | succ n =>
      have h1 := ih n
      have h2 := ih (n + 1)
      simp only [dropLines, List.length_cons]
      split_ifs <;> omega

/-! ## Two texts one after the other -/

theorem takeWhile_append_of_mem (h : sep ∈ x) :
    (x ++ y).takeWhile (· ≠ sep) = x.takeWhile (· ≠ sep) := by
  induction x with
  | nil => simp at h
  | cons c cs ih =>
    by_cases hc : c = sep
    · simp [hc]
    · have : sep ∈ cs := by simpa [Ne.symm hc] using h
      simpa [hc] using ih this

theorem takeWhile_append_of_notMem (h : sep ∉ x) :
    (x ++ y).takeWhile (· ≠ sep) = x ++ y.takeWhile (· ≠ sep) :=
  List.takeWhile_append_of_pos fun c hc => by
    simp only [ne_eq, decide_eq_true_eq]
    rintro rfl
    exact h hc

theorem lineAt_append_of_lt {n : ℕ} (h : n < x.count sep) :
    lineAt sep (x ++ y) n = lineAt sep x n := by
  rw [lineAt, dropLines_append_of_le h.le, takeWhile_append_of_mem (sep_mem_dropLines h), lineAt]

theorem lineAt_append_count :
    lineAt sep (x ++ y) (x.count sep) = lineAt sep x (x.count sep) ++ lineAt sep y 0 := by
  have h := dropLines_count_notMem sep x
  have hx : lineAt sep x (x.count sep) = dropLines sep (x.count sep) x := by
    have := takeWhile_append_of_notMem (y := []) h
    simpa [lineAt] using this
  rw [lineAt, dropLines_append_of_le le_rfl, takeWhile_append_of_notMem h, hx, lineAt,
    dropLines_zero]

theorem lineAt_append_add (n : ℕ) :
    lineAt sep (x ++ y) (x.count sep + (n + 1)) = lineAt sep y (n + 1) := by
  rw [lineAt, dropLines_append_add, lineAt]

/-! ## A deletion -/

/-- What a deletion of the characters from `start` to `stop` leaves of line `n`. -/
def remains (sep : α) (text : List α) (start stop n : ℕ) : List α :=
  (lineAt sep text n).take (start - lineStart sep text n) ++
    (lineAt sep text n).drop (stop - lineStart sep text n)

/-- The line that holds what is left of line `n` after a deletion. -/
def lineAfter (sep : α) (text : List α) (start stop n : ℕ) : ℕ :=
  if n ≤ lineOf sep text start then n else n - (lineOf sep text stop - lineOf sep text start)

/-- The end of a line before the last one. -/
theorem lineEnd_lt {n : ℕ} (h : n < x.count sep) :
    lineStart sep (x ++ y) n + (lineAt sep (x ++ y) n).length < x.length := by
  have hlen := length_dropLines_le sep x n
  have hmem := sep_mem_dropLines h
  have htake : ((dropLines sep n x).takeWhile (· ≠ sep)).length < (dropLines sep n x).length := by
    have hpre := List.takeWhile_prefix (fun c => decide (c ≠ sep)) (l := dropLines sep n x)
    refine lt_of_le_of_ne hpre.length_le fun heq => ?_
    have := List.mem_takeWhile_imp ((hpre.eq_of_length heq).symm ▸ hmem)
    simp at this
  rw [lineAt_append_of_lt h, lineStart, dropLines_append_of_le h.le, lineAt]
  simp only [List.length_append]
  omega

/-- The last line of the first of two texts ends with it. -/
theorem lineStart_append_count (sep : α) (x y : List α) :
    lineStart sep (x ++ y) (x.count sep) + (lineAt sep x (x.count sep)).length = x.length := by
  have hlen := length_dropLines_le sep x (x.count sep)
  have h := dropLines_count_notMem sep x
  have hx : lineAt sep x (x.count sep) = dropLines sep (x.count sep) x := by
    have := takeWhile_append_of_notMem (y := []) h
    simpa [lineAt] using this
  rw [hx, lineStart, dropLines_append_of_le le_rfl]
  simp only [List.length_append]
  omega

/-- A line of the second text starts in it. -/
theorem le_lineStart_add (sep : α) (x y : List α) (n : ℕ) :
    x.length + (lineStart sep y (n + 1)) = lineStart sep (x ++ y) (x.count sep + (n + 1)) := by
  have hlen := length_dropLines_le sep y (n + 1)
  rw [lineStart, lineStart, dropLines_append_add, List.length_append]
  omega

theorem lineAt_zero_drop (h : sep ∉ d) : (lineAt sep (d ++ y) 0).drop d.length = lineAt sep y 0 := by
  rw [lineAt, dropLines_zero, takeWhile_append_of_notMem h, List.drop_left, lineAt, dropLines_zero]

/-- The end of the first line, when a separator is deleted. -/
theorem drop_lineAt_zero (h : sep ∈ d) : (lineAt sep (d ++ y) 0).drop d.length = [] := by
  have := lineEnd_lt (y := y) (List.count_pos_iff.2 h)
  exact List.drop_eq_nil_of_le (by omega)

theorem remains_of_lt {n : ℕ} (h : n < x.count sep) :
    remains sep (x ++ (d ++ y)) x.length (x ++ d).length n = lineAt sep (x ++ y) n := by
  have hend := lineEnd_lt (y := d ++ y) h
  rw [remains, List.take_of_length_le (by omega), List.drop_eq_nil_of_le (by simp; omega),
    List.append_nil, lineAt_append_of_lt h, lineAt_append_of_lt h]

theorem remains_first :
    remains sep (x ++ (d ++ y)) x.length (x ++ d).length (x.count sep) =
      lineAt sep x (x.count sep) ++ (lineAt sep (d ++ y) 0).drop d.length := by
  have hend := lineStart_append_count sep x (d ++ y)
  have hstart : x.length - lineStart sep (x ++ (d ++ y)) (x.count sep) =
      (lineAt sep x (x.count sep)).length := by omega
  have hstop : (x ++ d).length - lineStart sep (x ++ (d ++ y)) (x.count sep) =
      (lineAt sep x (x.count sep)).length + d.length := by
    rw [List.length_append]
    omega
  rw [remains, hstart, hstop, lineAt_append_count, List.take_left, List.drop_length_add_append]

theorem remains_add (n : ℕ) :
    remains sep (x ++ (d ++ y)) x.length (x ++ d).length (x.count sep + (n + 1)) =
      (lineAt sep (d ++ y) (n + 1)).drop (d.length - lineStart sep (d ++ y) (n + 1)) := by
  have hstart := le_lineStart_add sep x (d ++ y) n
  have htake : x.length - lineStart sep (x ++ (d ++ y)) (x.count sep + (n + 1)) = 0 := by omega
  have hdrop : (x ++ d).length - lineStart sep (x ++ (d ++ y)) (x.count sep + (n + 1)) =
      d.length - lineStart sep (d ++ y) (n + 1) := by
    rw [List.length_append]
    omega
  rw [remains, htake, hdrop, lineAt_append_add, List.take_zero, List.nil_append]

theorem remains_add_infix (n : ℕ) :
    (lineAt sep (d ++ y) (n + 1)).drop (d.length - lineStart sep (d ++ y) (n + 1)) <:+:
      lineAt sep (x ++ y) (x.count sep + (n + 1) - d.count sep) := by
  obtain hlt | heq | hgt := Nat.lt_trichotomy (n + 1) (d.count sep)
  · have hend := lineEnd_lt (y := y) hlt
    rw [List.drop_eq_nil_of_le (by omega)]
    exact List.nil_infix
  · have hend := lineStart_append_count sep d y
    rw [heq, lineAt_append_count, List.drop_left' (by omega), Nat.add_sub_cancel,
      lineAt_append_count]
    exact (List.suffix_append _ _).isInfix
  · obtain ⟨k, rfl⟩ : ∃ k, n = d.count sep + k := ⟨n - d.count sep, by omega⟩
    have hstart := le_lineStart_add sep d y k
    have hn : x.count sep + (d.count sep + k + 1) - d.count sep = x.count sep + (k + 1) := by omega
    have hk : d.count sep + k + 1 = d.count sep + (k + 1) := rfl
    rw [hn, hk, lineAt_append_add, lineAt_append_add, ← hstart, Nat.sub_eq_zero_of_le (by omega),
      List.drop_zero]

/-- What is left of a line after a deletion. -/
theorem remains_infix (sep : α) {text : List α} {start stop : ℕ} (hle : start ≤ stop)
    (hstop : stop ≤ text.length) (n : ℕ) :
    remains sep text start stop n <:+:
      lineAt sep (text.take start ++ text.drop stop) (lineAfter sep text start stop n) := by
  obtain ⟨x, d, y, rfl, rfl, rfl⟩ : ∃ x d y, text = x ++ (d ++ y) ∧ start = x.length ∧
      stop = (x ++ d).length := by
    refine ⟨text.take start, (text.drop start).take (stop - start), text.drop stop, ?_, ?_, ?_⟩
    · rw [← List.append_assoc, ← List.take_add, Nat.add_sub_cancel' hle, List.take_append_drop]
    · simp; omega
    · simp; omega
  have hfirst : lineOf sep (x ++ (d ++ y)) x.length = x.count sep := by simp [lineOf]
  have hlast : lineOf sep (x ++ (d ++ y)) (x ++ d).length = x.count sep + d.count sep := by
    rw [lineOf, ← List.append_assoc, List.take_left, List.count_append]
  have hnew : (x ++ (d ++ y)).take x.length ++ (x ++ (d ++ y)).drop (x ++ d).length = x ++ y := by
    rw [List.take_left, ← List.append_assoc, List.drop_left]
  rw [hnew, lineAfter, hfirst, hlast, Nat.add_sub_cancel_left]
  obtain hlt | rfl | hgt := Nat.lt_trichotomy n (x.count sep)
  · rw [if_pos hlt.le, remains_of_lt hlt]
  · rw [if_pos le_rfl, remains_first, lineAt_append_count]
    by_cases hd : sep ∈ d
    · rw [drop_lineAt_zero hd, List.append_nil]
      exact (List.prefix_append _ _).isInfix
    · rw [lineAt_zero_drop hd]
  · obtain ⟨k, rfl⟩ : ∃ k, n = x.count sep + (k + 1) := ⟨n - x.count sep - 1, by omega⟩
    rw [if_neg (by omega), remains_add]
    exact remains_add_infix k

end TextLines
