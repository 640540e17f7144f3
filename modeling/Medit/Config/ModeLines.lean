import Medit.Config.ModeStrings
import Medit.Library.LineNumbers

/-!
# Mode lines

Translation of `update_config_from_mode_lines` from `mooedit/mooedit.cpp`, which looks for mode
strings in the first two lines of a document and in the last one.

## Main definitions

* `updateConfigFromModeLines` — the effect on the settings of the document.
* `ModeLinesRight` — three lines are tried, and their settings are passed on.

## Main results

* `updateConfigFromModeLines_right_iff` — the third of three lines is not tried.
-/

namespace Medit.ModeLines

open CharLines FilterSettings Words Leftmost

/-! ## Model -/

/-- A range of the buffer, as `gtk_text_buffer_get_slice` takes it. -/
abbrev Range := ℕ × ℕ

def getSlice (t : List Char) (r : Range) : List Char := (t.drop r.1).take (r.2 - r.1)

/-- `gtk_text_iter_backward_line` -/
def backwardLine (t : List Char) (pos : ℕ) : ℕ :=
  if lineStart t pos = 0 then 0 else lineStart t (lineStart t pos - 1)

/-- The line that starts at an iterator, unless nothing is on it. -/
def rangeAt (t : List Char) (start : ℕ) : Option Range :=
  if endsLine t start then none else some (start, forwardToLineEnd t start)

def first (t : List Char) : Option Range := rangeAt t 0

def second (t : List Char) : Option Range := (forwardLine t 0).bind (rangeAt t)

def last (t : List Char) : Option Range :=
  let r :=
    if startsLine t t.length then
      let start := backwardLine t t.length
      (start, forwardToLineEnd t start)
    else (lineStart t t.length, t.length)
  if lineNumber t r.1 ≠ 1 ∧ lineNumber t r.1 ≠ 2 then some r else none

/-- What is tried, in order. -/
def modeLines (t : List Char) : List Range := [first t, second t, last t].filterMap id

section Model

variable {V : Type*} [DecidableEq V] (langs : List Char → Bool) (isUnicharSpace : Char → Bool)
  (d : ℕ)

/-- `update_config_from_mode_lines` -/
def updateConfigFromModeLines (t : List Char) (c : EditConfigs V) : EditConfigs V :=
  (modeLines t).foldl (fun c r => tryModeString langs isUnicharSpace d (getSlice t r) c) c

end Model

/-! ## Lines by their numbers -/

/-- A line by its number. -/
def lineRange (t : List Char) (k : ℕ) : Option Range :=
  (lineStarts t)[k]?.map fun start => (start, start + (lineText t start).length)

/-- The numbers of the first line, the second one and the last one. -/
def chosen (t : List Char) : List ℕ :=
  (List.range (lineStarts t).length).filter fun k => k = 0 ∨ k = 1 ∨ k + 1 = (lineStarts t).length

/-- A line with nothing on it. -/
def EmptyLine (t : List Char) (k : ℕ) : Prop := ∀ r ∈ lineRange t k, getSlice t r = []

variable {t : List Char} {start : ℕ} {r : Range}

theorem getSlice_lineText (t : List Char) (start : ℕ) :
    getSlice t (start, start + (lineText t start).length) = lineText t start := by
  rw [getSlice, Nat.add_sub_cancel_left]
  exact (List.prefix_iff_eq_take.1 (List.takeWhile_prefix _)).symm

theorem rangeAt_eq (h : startsLine t start) :
    rangeAt t start = if lineText t start = [] then none
      else some (start, start + (lineText t start).length) := by
  unfold rangeAt
  have hends := endsLine_iff_lineText h
  by_cases hline : lineText t start = []
  · rw [if_pos (hends.2 hline), if_pos hline]
  · rw [if_neg fun hend => hline (hends.1 hend), if_neg hline, forwardToLineEnd_of_lineText hline]

/-- In front of the end of a text there is its last line. -/
theorem lineStart_length (h : t ≠ []) (hstart : startsLine t t.length = false) :
    lineStart t t.length = lineStart t (t.length - 1) := by
  obtain ⟨n, hn⟩ := Nat.exists_eq_succ_of_ne_zero (List.length_pos_iff.2 h).ne'
  rw [hn] at hstart ⊢
  rw [lineStart, if_neg (by simpa using hstart)]
  rfl

/-- The last line, or the ends of lines at the end of the text. -/
structure IsLast (t : List Char) (r : Range) : Prop where
  start : r.1 = lineStart t (t.length - 1)
  slice : lineText t r.1 ≠ [] → r = (r.1, r.1 + (lineText t r.1).length)
  isDelim : lineText t r.1 = [] → ∀ x ∈ getSlice t r, Paragraphs.isDelim x = true

/-- The end of a line is made of delimiters. -/
theorem isDelim_of_length_eq {l : List Char} (h : l.length = delimLen l) :
    ∀ x ∈ l, Paragraphs.isDelim x = true := by
  cases l with
  | nil => simp
  | cons c cs =>
    rw [delimLen] at h
    split_ifs at h with hcrlf hdelim
    · simp only [Bool.and_eq_true, beq_iff_eq] at hcrlf
      obtain ⟨rfl, hhead⟩ := hcrlf
      obtain ⟨n, rfl⟩ := List.length_eq_one_iff.1 (by simpa using h : cs.length = 1)
      obtain rfl : n = '\n' := by simpa using hhead
      simp [Paragraphs.isDelim]
    · obtain rfl : cs = [] := by simpa using h
      simpa using hdelim

/-- Behind the last line there is nothing but its end. -/
theorem length_drop_last (h : t ≠ []) (hstart : start = lineStart t (t.length - 1)) :
    nextLine t start = t.length ∧
      (t.drop (start + (lineText t start).length)).length =
        delimLen (t.drop (start + (lineText t start).length)) := by
  have hpos := List.length_pos_iff.2 h
  have hle := lineStart_le t (t.length - 1)
  have hnext : nextLine t start = t.length := by
    have hlt : start < nextLine t start := lt_nextLine (by omega)
    have hlen : nextLine t start ≤ t.length := nextLine_le_length (by omega)
    by_contra hne
    have hends : startsLine t (nextLine t start) = true ∨ nextLine t start = t.length :=
      startsLine_nextLine (by omega)
    have hstarts := hends.resolve_right hne
    have hle' : nextLine t start ≤ t.length - 1 := by omega
    have hnot : startsLine t (nextLine t start) = false :=
      startsLine_of_lineStart_lt (hstart ▸ hlt) hle'
    rw [hnot] at hstarts
    cases hstarts
  refine ⟨hnext, ?_⟩
  have heq := nextLine_eq t start
  rw [hnext, List.drop_drop, ← lineText] at heq
  rw [List.length_drop]
  omega

theorem isLast_of_startsLine (h : t ≠ []) (hstarts : startsLine t t.length) :
    IsLast t (backwardLine t t.length, forwardToLineEnd t (backwardLine t t.length)) := by
  obtain ⟨n, hn⟩ := Nat.exists_eq_succ_of_ne_zero (List.length_pos_iff.2 h).ne'
  have hself : lineStart t t.length = t.length := by
    rw [hn] at hstarts ⊢
    rw [lineStart, if_pos hstarts]
  have hback : backwardLine t t.length = lineStart t (t.length - 1) := by
    rw [backwardLine, hself, if_neg (by omega)]
  obtain ⟨hnext, hlength⟩ := length_drop_last h hback
  refine ⟨hback, fun hline => ?_, fun hline => ?_⟩
  · rw [forwardToLineEnd_of_lineText hline]
  · have hstop : forwardToLineEnd t (backwardLine t t.length) = t.length := by
      unfold lineText at hline
      simp [forwardToLineEnd, hline, forwardLine, hnext]
    rw [hline, List.length_nil, Nat.add_zero] at hlength
    intro x hx
    exact isDelim_of_length_eq hlength x (List.mem_of_mem_take hx)

theorem isLast_of_not_startsLine (h : t ≠ []) (hstarts : startsLine t t.length = false) :
    IsLast t (lineStart t t.length, t.length) := by
  have hstart := lineStart_length h hstarts
  have hpos := List.length_pos_iff.2 h
  have hle := lineStart_le t (t.length - 1)
  obtain ⟨-, hlength⟩ := length_drop_last h hstart
  have hnil : t.drop (lineStart t t.length + (lineText t (lineStart t t.length)).length) = [] := by
    by_contra hne
    have hlast := List.getLast_mem hne
    rw [List.getLast_drop] at hlast
    have hdelim := isDelim_of_length_eq hlength _ hlast
    have hany : t.getLast?.any Paragraphs.isDelim = true := by
      rw [List.getLast?_eq_some_getLast h]
      exact hdelim
    rw [startsLine_length.2 (Or.inr hany)] at hstarts
    cases hstarts
  have hstop : t.length ≤ lineStart t t.length + (lineText t (lineStart t t.length)).length :=
    List.drop_eq_nil_iff.1 hnil
  have hline := congrArg List.length (getSlice_lineText t (lineStart t t.length))
  refine ⟨hstart, fun _ => Prod.ext rfl ?_, fun hline => ?_⟩
  · simp only [getSlice, List.length_take, List.length_drop] at hline
    change t.length = lineStart t t.length + (lineText t (lineStart t t.length)).length
    omega
  · simp only [hline, List.length_nil] at hstop
    omega

/-- What the last line is tried for. -/
theorem exists_last (h : t ≠ []) : ∃ r, IsLast t r ∧
    last t = if (lineStarts t).length ≠ 2 ∧ (lineStarts t).length ≠ 3 then some r else none := by
  have hlength := length_lineStarts h
  have hnumber {r : Range} (hr : IsLast t r) :
      (if lineNumber t r.1 ≠ 1 ∧ lineNumber t r.1 ≠ 2 then some r else none) =
        if (lineStarts t).length ≠ 2 ∧ (lineStarts t).length ≠ 3 then some r else none := by
    rw [hr.start, lineNumber_lineStart, hlength]
    simp
  cases hstarts : startsLine t t.length with
  | true =>
    have hr := isLast_of_startsLine h hstarts
    exact ⟨_, hr, by simp only [last, hstarts, if_true, hnumber hr]⟩
  | false =>
    have hr := isLast_of_not_startsLine h hstarts
    exact ⟨_, hr, by simp only [last, hstarts, Bool.false_eq_true, if_false, hnumber hr]⟩

/-! ## Lines that are tried -/

theorem lineRange_eq_some {k : ℕ} : lineRange t k = some r ↔
    ∃ start, (lineStarts t)[k]? = some start ∧ (start, start + (lineText t start).length) = r := by
  simp [lineRange]

theorem getSlice_of_lineRange {k : ℕ} (h : lineRange t k = some r) :
    getSlice t r = lineText t r.1 := by
  obtain ⟨start, -, rfl⟩ := lineRange_eq_some.1 h
  exact getSlice_lineText t start

theorem bind_rangeAt (t : List Char) (k : ℕ) :
    (lineStarts t)[k]?.bind (rangeAt t) = (lineRange t k).filter (getSlice t · ≠ []) := by
  unfold lineRange
  cases hk : (lineStarts t)[k]? with
  | none => rfl
  | some start =>
    have hstart := (mem_lineStarts.1 (List.mem_of_getElem? hk)).2
    rw [Option.bind_some, rangeAt_eq hstart, Option.map_some, Option.filter, getSlice_lineText]
    by_cases hline : lineText t start = [] <;> simp [hline]

theorem first_eq (t : List Char) : first t = (lineRange t 0).filter (getSlice t · ≠ []) := by
  rcases eq_or_ne t [] with rfl | hne
  · rfl
  · rw [← bind_rangeAt, getElem?_zero hne]
    rfl

theorem second_eq (t : List Char) : second t = (lineRange t 1).filter (getSlice t · ≠ []) := by
  rw [← bind_rangeAt, getElem?_one]
  rfl

theorem mem_modeLines : r ∈ modeLines t ↔
    (lineRange t 0 = some r ∨ lineRange t 1 = some r) ∧ getSlice t r ≠ [] ∨ last t = some r := by
  have hmem : r ∈ modeLines t ↔ first t = some r ∨ second t = some r ∨ last t = some r := by
    simp [modeLines, eq_comm]
  rw [hmem, first_eq, second_eq, Option.filter_eq_some_iff, Option.filter_eq_some_iff,
    decide_eq_true_iff, or_and_right, or_assoc]

/-- The last line as it is tried. -/
theorem last_cases (h : last t = some r) :
    (∀ x ∈ getSlice t r, Paragraphs.isDelim x = true) ∨
      lineRange t ((lineStarts t).length - 1) = some r := by
  rcases eq_or_ne t [] with rfl | hne
  · left
    simp [getSlice]
  obtain ⟨r', hr, hlast⟩ := exists_last hne
  rw [hlast] at h
  split_ifs at h with hcount
  obtain rfl : r' = r := by simpa using h
  by_cases hline : lineText t r'.1 = []
  · exact Or.inl (hr.isDelim hline)
  · refine Or.inr (lineRange_eq_some.2 ⟨r'.1, ?_, (hr.slice hline).symm⟩)
    rw [hr.start, getElem?_last hne]

theorem last_of_lineRange (h : lineRange t ((lineStarts t).length - 1) = some r)
    (hslice : getSlice t r ≠ []) : last t =
      if (lineStarts t).length ≠ 2 ∧ (lineStarts t).length ≠ 3 then some r else none := by
  have hne : t ≠ [] := by
    rintro rfl
    simp [lineRange, lineStarts] at h
  obtain ⟨r', hr, hlast⟩ := exists_last hne
  rw [getSlice_of_lineRange h] at hslice
  obtain ⟨start, hstart, rfl⟩ := lineRange_eq_some.1 h
  rw [getElem?_last hne] at hstart
  obtain rfl : r'.1 = start := hr.start.trans (Option.some.inj hstart)
  rw [hlast, ← hr.slice hslice]

/-- Each line has its own range. -/
theorem lineRange_inj {k l : ℕ} (hk : lineRange t k = some r) (hl : lineRange t l = some r) :
    k = l := by
  obtain ⟨start, hstart, rfl⟩ := lineRange_eq_some.1 hk
  obtain ⟨start', hstart', heq⟩ := lineRange_eq_some.1 hl
  obtain rfl : start' = start := congrArg Prod.fst heq
  have hlt := (List.getElem?_eq_some_iff.1 hstart).1
  exact (List.getElem?_inj hlt (nodup_lineStarts t)).1 (hstart.trans hstart'.symm)

theorem not_isDelim_of_lineRange {k : ℕ} (h : lineRange t k = some r) (hslice : getSlice t r ≠ []) :
    ¬ ∀ x ∈ getSlice t r, Paragraphs.isDelim x = true := by
  intro hall
  obtain ⟨x, hx⟩ := List.exists_mem_of_ne_nil _ hslice
  have hdelim := hall x hx
  rw [getSlice_of_lineRange h] at hx
  rw [isDelim_of_mem_untilDelim hx] at hdelim
  cases hdelim

/-- Which lines are tried. -/
theorem mem_modeLines_iff {k : ℕ} (h : (lineStarts t).length = 3 → EmptyLine t 2)
    (hr : lineRange t k = some r) (hslice : getSlice t r ≠ []) :
    r ∈ modeLines t ↔ k = 0 ∨ k = 1 ∨ k + 1 = (lineStarts t).length := by
  obtain ⟨start, hstart, -⟩ := lineRange_eq_some.1 hr
  have hlt := (List.getElem?_eq_some_iff.1 hstart).1
  rw [mem_modeLines]
  constructor
  · rintro (⟨hfirst | hsecond, -⟩ | hlast)
    · exact Or.inl (lineRange_inj hr hfirst)
    · exact Or.inr (Or.inl (lineRange_inj hr hsecond))
    · have hrange := (last_cases hlast).resolve_left (not_isDelim_of_lineRange hr hslice)
      have := lineRange_inj hr hrange
      omega
  · intro hk
    by_cases hk0 : k = 0
    · exact Or.inl ⟨Or.inl (hk0 ▸ hr), hslice⟩
    by_cases hk1 : k = 1
    · exact Or.inl ⟨Or.inr (hk1 ▸ hr), hslice⟩
    have hcount : (lineStarts t).length - 1 = k := by omega
    have hne : (lineStarts t).length ≠ 3 := by
      intro hthree
      obtain rfl : k = 2 := by omega
      exact hslice (h hthree r hr)
    rw [← hcount] at hr
    exact Or.inr ((last_of_lineRange hr hslice).trans (if_pos ⟨by omega, hne⟩))

/-! ## The three lines -/

/-- Three lines are tried and no others, and what settings there are in a line is passed to the
setter of its style. -/
structure ModeLinesRight (V : Type*) [DecidableEq V] (langs : List Char → Bool)
    (isUnicharSpace : Char → Bool) (d : ℕ) (t : List Char) : Prop where
  effect : ∀ c : EditConfigs V, updateConfigFromModeLines langs isUnicharSpace d t c =
    ((chosen t).filterMap (lineRange t)).foldl
      (fun c r => tryModeString langs isUnicharSpace d (getSlice t r) c) c
  tried : ∀ k r, lineRange t k = some r → getSlice t r ≠ [] →
    (r ∈ modeLines t ↔ k = 0 ∨ k = 1 ∨ k + 1 = (lineStarts t).length)
  only : ∀ r ∈ modeLines t,
    (∀ x ∈ getSlice t r, Paragraphs.isDelim x = true) ∨ ∃ k, lineRange t k = some r
  kate : ∀ (settings : List Written) (rest : List (List Char)) (before line : List Char),
    IsSettings ' ' settings rest → line = before ++ kateModeString ++ joined settings rest →
    strstr kateModeString line = some before.length → ∀ c : EditConfigs V,
      tryModeString langs isUnicharSpace d line c = (settings.map Written.trimmed).foldl
        (fun c (name, value) => setKateVar d name value c) c
  emacs : ∀ (settings : List Written) (rest : List (List Char)) (before after line : List Char),
    IsSettings ':' settings rest → joined settings rest ≠ [] →
    line = before ++ emacsModeString ++ (joined settings rest ++ emacsModeString ++ after) →
    strstr kateModeString line = none → strstr emacsModeString line = some before.length →
    strstr emacsModeString (joined settings rest ++ emacsModeString ++ after) =
      some (joined settings rest).length →
    findLang langs (strip isSpace (joined settings rest)) = false → ∀ c : EditConfigs V,
      tryModeString langs isUnicharSpace d line c = (settings.map Written.trimmed).foldl
        (fun c (name, value) => setEmacsVar d name value c) c

section Effect

variable {V : Type*} [DecidableEq V] (langs : List Char → Bool) (isUnicharSpace : Char → Bool)
  (d : ℕ) (t : List Char)

/-- A line is tried if there is one. -/
def tryRange (r : Option Range) (c : EditConfigs V) : EditConfigs V :=
  r.elim c fun r => tryModeString langs isUnicharSpace d (getSlice t r) c

theorem tryRange_filter (r : Option Range) (c : EditConfigs V) :
    tryRange langs isUnicharSpace d t (r.filter (getSlice t · ≠ [])) c =
      tryRange langs isUnicharSpace d t r c := by
  cases r with
  | none => rfl
  | some r =>
    by_cases hslice : getSlice t r = []
    · have hnone : tryModeString langs isUnicharSpace d [] c = c :=
        tryModeString_of_isDelim langs isUnicharSpace (by simp) c
      simp [tryRange, Option.filter, hslice, hnone]
    · simp [tryRange, Option.filter, hslice]

theorem updateConfigFromModeLines_eq (c : EditConfigs V) :
    updateConfigFromModeLines langs isUnicharSpace d t c =
      tryRange langs isUnicharSpace d t (last t) (tryRange langs isUnicharSpace d t (lineRange t 1)
        (tryRange langs isUnicharSpace d t (lineRange t 0) c)) := by
  rw [← tryRange_filter (r := lineRange t 1), ← tryRange_filter (r := lineRange t 0), ← second_eq,
    ← first_eq]
  unfold updateConfigFromModeLines modeLines tryRange
  cases first t <;> cases second t <;> cases last t <;> rfl

/-- Blank lines have no effect. -/
theorem tryRange_of_isDelim {r : Range} (h : ∀ x ∈ getSlice t r, Paragraphs.isDelim x = true)
    (c : EditConfigs V) : tryRange langs isUnicharSpace d t (some r) c = c :=
  tryModeString_of_isDelim langs isUnicharSpace h c

theorem tryRange_last (c : EditConfigs V) :
    tryRange langs isUnicharSpace d t (last t) c =
      if (lineStarts t).length = 2 ∨ (lineStarts t).length = 3 then c
      else tryRange langs isUnicharSpace d t (lineRange t ((lineStarts t).length - 1)) c := by
  rcases eq_or_ne t [] with rfl | hne
  · exact tryRange_of_isDelim langs isUnicharSpace d [] (by simp [getSlice]) c
  obtain ⟨r, hr, hlast⟩ := exists_last hne
  rw [hlast]
  by_cases hcount : (lineStarts t).length = 2 ∨ (lineStarts t).length = 3
  · rw [if_pos hcount, if_neg (by omega)]
    rfl
  · rw [if_neg hcount, if_pos (by omega)]
    have hrange : lineRange t ((lineStarts t).length - 1) =
        some (r.1, r.1 + (lineText t r.1).length) :=
      lineRange_eq_some.2 ⟨r.1, by rw [hr.start, getElem?_last hne], rfl⟩
    by_cases hline : lineText t r.1 = []
    · have hslice : getSlice t (r.1, r.1 + (lineText t r.1).length) = [] := by
        rw [getSlice_lineText, hline]
      rw [hrange, tryRange_of_isDelim langs isUnicharSpace d t (hr.isDelim hline),
        tryRange_of_isDelim langs isUnicharSpace d t (by simp [hslice])]
    · rw [hrange, ← hr.slice hline]

theorem tryRange_twice (r : Option Range) (c : EditConfigs V) :
    tryRange langs isUnicharSpace d t r (tryRange langs isUnicharSpace d t r c) =
      tryRange langs isUnicharSpace d t r c := by
  cases r with
  | none => rfl
  | some r => exact (setsFile_tryModeString langs isUnicharSpace (getSlice t r)).twice c

theorem foldl_filterMap_lineRange (l : List ℕ) (c : EditConfigs V) :
    (l.filterMap (lineRange t)).foldl
        (fun c r => tryModeString langs isUnicharSpace d (getSlice t r) c) c =
      l.foldl (fun c k => tryRange langs isUnicharSpace d t (lineRange t k) c) c := by
  induction l generalizing c with
  | nil => rfl
  | cons k l ih =>
    rw [List.filterMap_cons, List.foldl_cons]
    cases hk : lineRange t k with
    | none => exact ih c
    | some r => exact ih _

theorem lineRange_eq_none {k : ℕ} (h : (lineStarts t).length ≤ k) : lineRange t k = none := by
  simp [lineRange, List.getElem?_eq_none h]

/-- The three lines of a text that has more of them. -/
theorem chosen_of_three {n : ℕ} (h : (lineStarts t).length = n + 3) : chosen t = [0, 1, n + 2] := by
  have hmiddle : ((List.range n).map (2 + ·)).filter
      (fun k => decide (k = 0 ∨ k = 1 ∨ k + 1 = n + 3)) = [] := by
    rw [List.filter_eq_nil_iff]
    intro k hk
    obtain ⟨i, hi, rfl⟩ := List.mem_map.1 hk
    have := List.mem_range.1 hi
    simp
    omega
  rw [chosen, h, show n + 3 = 2 + n + 1 by omega, List.range_succ, List.range_add]
  rw [show 2 + n + 1 = n + 3 by omega, List.filter_append, List.filter_append, hmiddle]
  simp [List.range_succ, show 2 + n = n + 2 by omega]

/-- The effect is the one of three lines, unless the third of three lines is left out. -/
theorem updateConfigFromModeLines_effect (h : (lineStarts t).length = 3 → EmptyLine t 2)
    (c : EditConfigs V) : updateConfigFromModeLines langs isUnicharSpace d t c =
      ((chosen t).filterMap (lineRange t)).foldl
        (fun c r => tryModeString langs isUnicharSpace d (getSlice t r) c) c := by
  rw [updateConfigFromModeLines_eq, tryRange_last, foldl_filterMap_lineRange]
  rcases hcount : (lineStarts t).length with _ | _ | _ | n
  · have hnone (k : ℕ) : lineRange t k = none := lineRange_eq_none t (by omega)
    simp [hnone, chosen, hcount, tryRange]
  · have hone : lineRange t 1 = none := lineRange_eq_none t (by omega)
    have htwice := tryRange_twice langs isUnicharSpace d t (lineRange t 0) c
    simpa [hone, chosen, hcount, tryRange] using htwice
  · simp [chosen, hcount, List.range_succ]
  · rw [chosen_of_three t hcount]
    rcases eq_or_ne n 0 with rfl | hn
    · have hempty : tryRange (V := V) langs isUnicharSpace d t (lineRange t 2) = fun c => c := by
        funext c
        cases hr : lineRange t 2 with
        | none => rfl
        | some r =>
          have hslice : getSlice t r = [] := h hcount r hr
          exact tryRange_of_isDelim langs isUnicharSpace d t (by simp [hslice]) c
      simp [hempty]
    · simp [hn]

end Effect

/-- Three lines are tried and no others if the text has not exactly three lines, or nothing is on
the third one. -/
theorem updateConfigFromModeLines_right_iff {V : Type*} [DecidableEq V] (langs : List Char → Bool)
    (isUnicharSpace : Char → Bool) (d : ℕ) (t : List Char) :
    ModeLinesRight V langs isUnicharSpace d t ↔
      ((lineStarts t).length = 3 → EmptyLine t 2) := by
  constructor
  · intro hright hcount r hr
    by_contra hslice
    have hmem := (hright.tried 2 r hr hslice).2 (Or.inr (Or.inr hcount.symm))
    obtain ⟨hfirst | hsecond, -⟩ | hlast := mem_modeLines.1 hmem
    · exact absurd (lineRange_inj hr hfirst) (by omega)
    · exact absurd (lineRange_inj hr hsecond) (by omega)
    · have hrange : lineRange t ((lineStarts t).length - 1) = some r := by rw [hcount, ← hr]
      rw [last_of_lineRange hrange hslice, if_neg (by omega)] at hlast
      cases hlast
  · intro h
    refine ⟨updateConfigFromModeLines_effect langs isUnicharSpace d t h, fun k r hr hslice => ?_,
      fun r hr => ?_, fun settings rest before line hs hline hfirst c =>
        tryModeString_kate hs hline hfirst c,
      fun settings rest before after line hs hne hline hkate hfirst hsecond hlang c =>
        tryModeString_emacs hs hne hline hkate hfirst hsecond hlang c⟩
    · exact mem_modeLines_iff h hr hslice
    · obtain ⟨hfirst | hsecond, -⟩ | hlast := mem_modeLines.1 hr
      · exact Or.inr ⟨0, hfirst⟩
      · exact Or.inr ⟨1, hsecond⟩
      · exact (last_cases hlast).imp_right fun hrange => ⟨_, hrange⟩

/-- A setting of the width of a tab. -/
def tabWidth : ConfigSpec ℕ where
  name := "tab-width".toList
  canonical := by decide
  valueDefault := 8
  fromString s := if s = ['4'] then some 4 else none

/-- A document without settings of its own. -/
def plainConfigs : EditConfigs ℕ :=
  ⟨[tabWidth], fun _ => none, [⟨8, .auto⟩], fun _ => some [⟨8, .auto⟩]⟩

/-- The third of three lines sets nothing, and would set the width of a tab. -/
theorem third_line_not_tried :
    let t := "a\nb\nkate: tab-width 4\n".toList
    ((updateConfigFromModeLines (fun _ => false) FilterSettings.isSpace 0 t
      plainConfigs).instances 0 = some [⟨8, .auto⟩]) ∧
    ((tryModeString (fun _ => false) FilterSettings.isSpace 0 "kate: tab-width 4".toList
      plainConfigs).instances 0 = some [⟨4, .file⟩]) ∧
    ¬ ModeLinesRight ℕ (fun _ => false) FilterSettings.isSpace 0 t := by
  refine ⟨by decide, by decide, fun h => ?_⟩
  have hmem := (h.tried 2 (4, 21) (by decide) (by decide)).2 (by decide)
  exact absurd hmem (by decide)

end Medit.ModeLines
