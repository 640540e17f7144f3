import Mathlib.Data.List.TakeWhile
import Medit.Library.Paragraphs

/-!
# Positions in a text with lines

The iterators of a `GtkTextBuffer` as offsets into its characters. A line ends at `\n`, `\r`, `\r\n`
or U+2029.

## Main definitions

* `startsLine`, `endsLine`, `forwardToLineEnd`, `forwardLine` — `gtk_text_iter_starts_line` and so
  on.
* `lines` — the lines of a text.

## Main results

* `untilDelim_append` — the first line of a text.
* `lines_flatMap` — the lines of a text that is put together from lines.
-/

namespace CharLines

open Paragraphs

/-- `gtk_text_iter_starts_line` -/
def startsLine (t : List Char) (pos : ℕ) : Bool :=
  pos == 0 || t[pos - 1]?.any fun c => isDelim c && !(c == '\r' && t[pos]? == some '\n')

/-- `gtk_text_iter_ends_line` -/
def endsLine (t : List Char) (pos : ℕ) : Bool :=
  t[pos]?.all fun c => isDelim c && !(c == '\n' && pos != 0 && t[pos - 1]? == some '\r')

/-- The characters in front of the next end of a line. -/
def untilDelim (t : List Char) : List Char := t.takeWhile fun c => !isDelim c

/-- The length of the end of a line that a text begins with. -/
def delimLen : List Char → ℕ
  | [] => 0
  | c :: cs => if c == '\r' && cs.head? == some '\n' then 2 else if isDelim c then 1 else 0

/-- The start of the next line, or the end of the text. -/
def nextLine (t : List Char) (pos : ℕ) : ℕ :=
  let stop := pos + (untilDelim (t.drop pos)).length
  stop + delimLen (t.drop stop)

/-- The start of the line of a position, where `gtk_text_iter_set_line_offset` goes to. -/
def lineStart (t : List Char) : ℕ → ℕ
  | 0 => 0
  | pos + 1 => if startsLine t (pos + 1) then pos + 1 else lineStart t pos

attribute [elab_as_elim] lineStart.induct_unfolding

/-- `gtk_text_iter_forward_line`: the start of the next line, if there is something on it. -/
def forwardLine (t : List Char) (pos : ℕ) : Option ℕ :=
  if nextLine t pos < t.length then some (nextLine t pos) else none

/-- `gtk_text_iter_forward_to_line_end`, which goes to the end of the next line from the end of
one. -/
def forwardToLineEnd (t : List Char) (pos : ℕ) : ℕ :=
  if untilDelim (t.drop pos) ≠ [] then pos + (untilDelim (t.drop pos)).length
  else
    match forwardLine t pos with
    | some next => next + (untilDelim (t.drop next)).length
    | none => t.length

/-- The lines of a text, without their ends. -/
def lines (t : List Char) : List (List Char) :=
  ((paragraphs t).splitOnP Sym.isEol).map Paragraphs.text

variable {t : List Char} {pos : ℕ}

/-- In front of the start of a line there is the end of one, which may be two characters. -/
theorem endsLine_of_startsLine (hpos : 0 < pos) (h : startsLine t pos) :
    endsLine t (pos - 1) ∨
      2 ≤ pos ∧ t[pos - 2]? = some '\r' ∧ t[pos - 1]? = some '\n' ∧ endsLine t (pos - 2) := by
  simp only [startsLine, beq_iff_eq, hpos.ne', Bool.or_eq_true, false_or] at h
  obtain ⟨c, hc, hdelim⟩ := Option.any_eq_true _ _ |>.1 h
  by_cases hcrlf : c = '\n' ∧ pos - 1 ≠ 0 ∧ t[pos - 1 - 1]? = some '\r'
  · obtain ⟨rfl, hne, hr⟩ := hcrlf
    have hends : endsLine t (pos - 2) := by
      rw [show pos - 2 = pos - 1 - 1 by omega]
      simp [endsLine, hr, isDelim]
    exact Or.inr ⟨by omega, hr, hc, hends⟩
  · left
    simp only [endsLine, hc, Option.all_some]
    simp only [Bool.and_eq_true] at hdelim
    rw [not_and_or, not_and_or] at hcrlf
    rw [hdelim.1]
    simpa [or_assoc] using hcrlf

/-- Behind the end of a line there is the start of one. -/
theorem startsLine_of_endsLine (hpos : pos < t.length) (h : endsLine t pos) :
    startsLine t (pos + 1) ∨
      t[pos]? = some '\r' ∧ t[pos + 1]? = some '\n' ∧ startsLine t (pos + 2) := by
  have hc : t[pos]? = some t[pos] := List.getElem?_eq_getElem hpos
  simp only [endsLine, hc, Option.all_some, Bool.and_eq_true] at h
  by_cases hcrlf : t[pos] = '\r' ∧ t[pos + 1]? = some '\n'
  · refine Or.inr ⟨by rw [hc, hcrlf.1], hcrlf.2, ?_⟩
    simp [startsLine, hcrlf.2, isDelim]
  · left
    rw [not_and_or] at hcrlf
    simp only [startsLine, Nat.add_sub_cancel, hc, Option.any_some, h.1]
    simpa using hcrlf

/-- Without `\r` every character that ends a line is the end of one. -/
theorem endsLine_eq (h : '\r' ∉ t) : endsLine t pos = (t.drop pos).head?.all isDelim := by
  rw [List.head?_drop, endsLine]
  cases hc : t[pos]? with
  | none => rfl
  | some c =>
    have hprev : (t[pos - 1]? == some '\r') = false := by
      rw [beq_eq_false_iff_ne]
      exact fun hcr => h (List.mem_of_getElem? hcr)
    simp [hprev]

theorem untilDelim_eq_nil : untilDelim t = [] ↔ t.head?.all isDelim = true := by
  cases t with
  | nil => simp [untilDelim]
  | cons c cs =>
    cases hc : isDelim c <;> simp [untilDelim, hc]

theorem delimLen_cons {c : Char} {cs : List Char} (hc : isDelim c) (hcr : c ≠ '\r') :
    delimLen (c :: cs) = 1 := by
  simp [delimLen, hc, hcr]

/-- A text is the line that it begins with, and the end of that line with what follows. -/
theorem untilDelim_append (t : List Char) :
    t = untilDelim t ++ t.drop (untilDelim t).length ∧
      (t.drop (untilDelim t).length).head?.all isDelim = true := by
  induction t with
  | nil => exact ⟨rfl, rfl⟩
  | cons c cs ih =>
    cases hc : isDelim c with
    | true => simp [untilDelim, hc]
    | false =>
      obtain ⟨happend, hhead⟩ := ih
      have hcons : untilDelim (c :: cs) = c :: untilDelim cs := by simp [untilDelim, hc]
      rw [hcons, List.length_cons, List.drop_succ_cons, List.cons_append]
      exact ⟨congrArg _ happend, hhead⟩

theorem nextLine_eq (t : List Char) (pos : ℕ) :
    nextLine t pos = pos + (untilDelim (t.drop pos)).length +
      delimLen ((t.drop pos).drop (untilDelim (t.drop pos)).length) := by
  rw [List.drop_drop]
  rfl

/-- Every line has something on it, or an end. -/
theorem lt_nextLine (h : pos < t.length) : pos < nextLine t pos := by
  obtain ⟨-, hhead⟩ := untilDelim_append (t.drop pos)
  rw [nextLine_eq]
  rcases hlen : (untilDelim (t.drop pos)).length with _ | n
  · obtain ⟨c, cs, hcons⟩ := List.exists_cons_of_ne_nil (l := t.drop pos) (by simpa using h)
    have hdelim : isDelim c := by
      rw [hlen, List.drop_zero, hcons] at hhead
      simpa using hhead
    have hpos : 0 < delimLen (c :: cs) := by
      simp only [delimLen, hdelim]
      split_ifs <;> simp
    rw [hcons, List.drop_zero]
    omega
  · omega

theorem isDelim_of_mem_untilDelim {c : Char} (h : c ∈ untilDelim t) : isDelim c = false := by
  have := List.mem_takeWhile_imp h
  simpa using this

/-! ## Starts of lines -/

theorem lineStart_le (t : List Char) (pos : ℕ) : lineStart t pos ≤ pos := by
  fun_induction lineStart t pos <;> grind

theorem startsLine_lineStart (t : List Char) (pos : ℕ) : startsLine t (lineStart t pos) = true := by
  fun_induction lineStart t pos with
  | case1 => rfl
  | case2 pos h => exact h
  | case3 pos h ih => exact ih

theorem startsLine_of_lineStart_lt {p : ℕ} (h : lineStart t pos < p) (hle : p ≤ pos) :
    startsLine t p = false := by
  fun_induction lineStart t pos with
  | case1 => omega
  | case2 pos hpos => omega
  | case3 pos hpos ih =>
    rcases hle.lt_or_eq with hlt | rfl
    · exact ih h (by omega)
    · simpa using hpos

theorem le_nextLine (t : List Char) (pos : ℕ) : pos ≤ nextLine t pos := by
  simp only [nextLine]
  omega

/-- The end of a line and what it ends with. -/
theorem nextLine_cases (h : pos ≤ t.length) :
    ∃ stop, (∀ i, pos ≤ i → i < stop → t[i]?.any isDelim = false) ∧
      (stop = t.length ∧ nextLine t pos = stop ∨
        (t[stop]? = some '\r' ∧ t[stop + 1]? = some '\n' ∧ nextLine t pos = stop + 2) ∨
        ∃ c, t[stop]? = some c ∧ isDelim c ∧ ¬(c = '\r' ∧ t[stop + 1]? = some '\n') ∧
          nextLine t pos = stop + 1) := by
  obtain ⟨happend, hhead⟩ := untilDelim_append (t.drop pos)
  have hnext := nextLine_eq t pos
  generalize hu : untilDelim (t.drop pos) = u at happend hhead hnext
  have hchar : ∀ i, t[pos + i]? = (t.drop pos)[i]? := fun i => by rw [List.getElem?_drop]
  refine ⟨pos + u.length, fun i hi hlt => ?_, ?_⟩
  · obtain ⟨k, rfl⟩ := Nat.exists_eq_add_of_le hi
    have hk : k < u.length := by omega
    rw [hchar, happend, List.getElem?_append_left hk, List.getElem?_eq_getElem hk]
    have hmem : u[k] ∈ untilDelim (t.drop pos) := hu ▸ List.getElem_mem hk
    simpa using isDelim_of_mem_untilDelim hmem
  · have hafter : ∀ i, t[pos + u.length + i]? = ((t.drop pos).drop u.length)[i]? := fun i => by
      rw [List.getElem?_drop, List.getElem?_drop, Nat.add_assoc]
    have hlen : ((t.drop pos).drop u.length).length = t.length - (pos + u.length) := by
      simp
    have hle : pos + u.length ≤ t.length := by
      have := congrArg List.length happend
      simp at this
      omega
    have hstop := hafter 0
    have hstop' := hafter 1
    rw [Nat.add_zero] at hstop
    generalize (t.drop pos).drop u.length = rest at hnext hhead hlen hstop hstop'
    rcases rest with _ | ⟨c, cs⟩
    · left
      simp only [List.length_nil, delimLen] at hlen hnext
      omega
    · right
      have hc : isDelim c := by simpa using hhead
      have hnl : t[pos + u.length + 1]? = cs.head? := by
        rw [hstop', List.head?_eq_getElem?]
        rfl
      by_cases hcrlf : c = '\r' ∧ cs.head? = some '\n'
      · left
        exact ⟨by rw [hstop, hcrlf.1]; rfl, by rw [hnl, hcrlf.2], by simp [hnext, delimLen, hcrlf]⟩
      · refine .inr ⟨c, hstop, hc, by rwa [hnl], ?_⟩
        have hlen' : delimLen (c :: cs) = 1 := by
          simp only [delimLen, Bool.and_eq_true, beq_iff_eq, hcrlf, hc, if_true, if_false]
        rw [hnext, hlen']

theorem nextLine_le_length (h : pos ≤ t.length) : nextLine t pos ≤ t.length := by
  obtain ⟨stop, -, ⟨hstop, hnext⟩ | ⟨-, hc, hnext⟩ | ⟨c, hc, -, -, hnext⟩⟩ := nextLine_cases h
  · omega
  · have := (List.getElem?_eq_some_iff.1 hc).1
    omega
  · have := (List.getElem?_eq_some_iff.1 hc).1
    omega

/-- The next line starts there, if there is one. -/
theorem startsLine_nextLine (h : pos ≤ t.length) :
    startsLine t (nextLine t pos) = true ∨ nextLine t pos = t.length := by
  obtain ⟨stop, -, ⟨hstop, hnext⟩ | ⟨-, hc, hnext⟩ | ⟨c, hc, hdelim, hcrlf, hnext⟩⟩ :=
    nextLine_cases h
  · exact .inr (hnext.trans hstop)
  · left
    rw [hnext, startsLine, Nat.add_sub_assoc (by omega), hc]
    simp [isDelim]
  · left
    rw [hnext, startsLine, Nat.add_sub_cancel, hc]
    simpa [hdelim, imp_iff_not_or] using hcrlf

theorem startsLine_of_lt_nextLine {p : ℕ} (h : pos ≤ t.length) (hlt : pos < p)
    (hnext : p < nextLine t pos) : startsLine t p = false := by
  have hpos : (p == 0) = false := by simp; omega
  obtain ⟨stop, hbefore, hcases⟩ := nextLine_cases h
  by_cases hp : p - 1 < stop
  · have := hbefore (p - 1) (by omega) hp
    rw [startsLine, hpos, Bool.false_or]
    cases hc : t[p - 1]? with
    | none => rfl
    | some c =>
      rw [hc] at this
      simp_all
  · rcases hcases with ⟨-, hnext'⟩ | ⟨hr, hn, hnext'⟩ | ⟨c, -, -, -, hnext'⟩
    · omega
    · obtain rfl : p = stop + 1 := by omega
      simp [startsLine, hr, hn]
    · omega

/-! ## Joined lines -/

theorem paragraphs_append (h : ∀ c ∈ t, isDelim c = false) (rest : List Char) :
    paragraphs (t ++ rest) = t.map ofChar ++ paragraphs rest := by
  induction t with
  | nil => rfl
  | cons c cs ih =>
    have hc : c ≠ '\r' := by
      rintro rfl
      exact absurd (h '\r' (by simp)) (by decide)
    rw [List.cons_append, paragraphs, if_neg fun hcr => hc hcr.1, ih fun c hc => h c (by simp [hc])]
    rfl

theorem isEol_ofChar {c : Char} (h : isDelim c = false) : (ofChar c).isEol = false := by
  have hn : c ≠ '\n' := by
    rintro rfl
    simp [isDelim] at h
  have hr : c ≠ '\r' := by
    rintro rfl
    simp [isDelim] at h
  simp [ofChar, hn, hr, h, Sym.isEol]

theorem text_map_ofChar (t : List Char) : Paragraphs.text (t.map ofChar) = t := by
  induction t with
  | nil => rfl
  | cons c cs ih => simp [chars_ofChar, ih]

theorem lines_of_line (h : ∀ c ∈ t, isDelim c = false) : lines t = [t] := by
  have ht := paragraphs_append h []
  rw [List.append_nil, paragraphs, List.append_nil] at ht
  rw [lines, ht, List.splitOnP_eq_singleton]
  · simp [text_map_ofChar]
  · simp only [List.mem_map]
    rintro _ ⟨c, hc, rfl⟩
    exact isEol_ofChar (h c hc)

theorem lines_append (h : ∀ c ∈ t, isDelim c = false) (rest : List Char) :
    lines (t ++ '\n' :: rest) = t :: lines rest := by
  have hn : paragraphs ('\n' :: rest) = .eol .lf :: paragraphs rest := by
    rw [paragraphs, if_neg (by simp)]
    rfl
  rw [lines, paragraphs_append h, hn, List.splitOnP_append_cons_of_forall_mem _ _ rfl]
  · simp [text_map_ofChar, lines]
  · simp only [List.mem_map]
    rintro _ ⟨c, hc, rfl⟩
    exact isEol_ofChar (h c hc)

/-- The lines of a text that is put together from lines. -/
theorem lines_flatMap {ls : List (List Char)} (h : ∀ l ∈ ls, ∀ c ∈ l, isDelim c = false)
    (ht : ∀ c ∈ t, isDelim c = false) : lines (ls.flatMap (· ++ ['\n']) ++ t) = ls ++ [t] := by
  induction ls with
  | nil => simpa using lines_of_line ht
  | cons x ls ih =>
    have hx := lines_append (h x (by simp)) (ls.flatMap (· ++ ['\n']) ++ t)
    rw [ih fun l hl => h l (by simp [hl])] at hx
    simpa using hx

/-- The end of a text starts a line where nothing is on its last one. -/
theorem startsLine_length :
    startsLine t t.length = true ↔ t = [] ∨ t.getLast?.any isDelim = true := by
  rcases List.eq_nil_or_concat t with rfl | ⟨t, c, rfl⟩
  · simp [startsLine]
  · simp [startsLine]

end CharLines
