import Medit.TextBuffer.LineOps

/-!
# Moving and sorting lines

What the line operations make of the lines of a buffer.

## Main results

* `SelectedText.moveLines_back` — lines moved down and up again.
* `SelectedText.lineOperations_iff` — when the operations do what they are for.
-/

namespace Medit

open Paragraphs CString

namespace SelectedText

variable {b : SelectedText}

/-! ## The operations on lines -/

/-- All ends of lines from the one in front of the selected lines to the one behind them are
`\n`. -/
def OnlyLf (b : SelectedText) : Prop :=
  ∀ e ∈ ((ends b.syms).take (b.lastLine + 1)).drop (b.firstLine - 1), e = .eol .lf

theorem OnlyLf.of_le (h : b.OnlyLf) {first last : ℕ} (hfirst : b.firstLine - 1 ≤ first)
    (hlast : last ≤ b.lastLine + 1) : ∀ e ∈ ((ends b.syms).take last).drop first, e = .eol .lf := by
  intro e he
  refine h e ?_
  obtain ⟨k, rfl⟩ := Nat.exists_eq_add_of_le hfirst
  have htake : (ends b.syms).take last = ((ends b.syms).take (b.lastLine + 1)).take last := by
    rw [List.take_take, min_eq_left hlast]
  rw [htake, ← List.drop_drop] at he
  exact ((List.take_sublist ..).drop _).subset (List.mem_of_mem_drop he)

/-- The selected lines and the line above them. -/
theorem moveLines_up (hinsert : b.insert ≤ b.syms.length)
    (hbound : b.selectionBound ≤ b.syms.length) (hpos : 0 < b.firstLine)
    (hends : ∀ e ∈ ((ends b.syms).take b.lastLine).drop (b.firstLine - 1), e = .eol .lf) :
    b.Becomes (b.moveLines (-1)) (movedUp (contents b.syms) b.firstLine b.lastLine) := by
  obtain ⟨hle, hlast, -⟩ := getSelectedLines_spec hinsert hbound
  have hle' : b.firstLine - 1 ≤ b.lastLine := by omega
  obtain ⟨htext, hbecomes⟩ := becomes_replace hle' hlast hends
  obtain ⟨A, B', C, hL, hA, hB'⟩ := exists_block (L := contents b.syms) hle'
    (by rw [length_contents]; omega)
  obtain ⟨n, B, rfl⟩ : ∃ n B, B' = n :: B :=
    List.exists_cons_of_ne_nil (by rintro rfl; simp at hB'; omega)
  have hlen : b.firstLine - 1 + (B.length + 1) = b.lastLine + 1 := hB'
  have hblock : block (contents b.syms) (b.firstLine - 1) b.lastLine = n :: B := by
    rw [hL]
    exact block_eq hA hB'
  have hmoved : movedUp (contents b.syms) b.firstLine b.lastLine =
      (contents b.syms).take (b.firstLine - 1) ++ (B ++ [n]) ++
        (contents b.syms).drop (b.lastLine + 1) := by
    rw [hL, movedUp_eq (by omega) (by omega), List.take_left' hA, drop_block hA hB']
    simp
  have hrun := hbecomes (B ++ [n]) (hblock ▸ List.perm_append_comm)
  rw [hmoved]
  have hsplit : strsplit (strjoinv (n :: B)) = n :: B :=
    hblock ▸ strsplit_block (by omega) hlast
  have hfirst : line b.syms b.getSelectedLines.start = b.firstLine := rfl
  have hlast' : line b.syms b.getSelectedLines.stop = b.lastLine := rfl
  rw [moveLines, if_neg (by decide)]
  simp only [hfirst, hlast']
  rw [if_neg (by omega)]
  simp only [show (-1 : ℤ) < 0 by decide, if_true, htext, hblock, hsplit]
  simpa [Becomes] using hrun

/-- The selected lines and the line below them. -/
theorem moveLines_down (hinsert : b.insert ≤ b.syms.length)
    (hbound : b.selectionBound ≤ b.syms.length) (hlt : b.lastLine + 1 < (contents b.syms).length)
    (hends : ∀ e ∈ ((ends b.syms).take (b.lastLine + 1)).drop b.firstLine, e = .eol .lf) :
    b.Becomes (b.moveLines 1) (movedDown (contents b.syms) b.firstLine b.lastLine) := by
  obtain ⟨hle, hlast, -⟩ := getSelectedLines_spec hinsert hbound
  have hle' : b.firstLine ≤ b.lastLine + 1 := by omega
  have hlast' : b.lastLine + 1 ≤ b.syms.countP Sym.isEol := by
    rw [length_contents] at hlt
    omega
  obtain ⟨htext, hbecomes⟩ := becomes_replace hle' hlast' hends
  obtain ⟨A, B', C, hL, hA, hB'⟩ := exists_block hle' hlt
  obtain ⟨B, n, rfl⟩ : ∃ B n, B' = B ++ [n] := by
    rcases List.eq_nil_or_concat' B' with rfl | ⟨B, n, rfl⟩
    · simp at hB'
      omega
    · exact ⟨B, n, rfl⟩
  have hlen : b.firstLine + B.length = b.lastLine + 1 := by
    rw [List.length_append, List.length_singleton] at hB'
    omega
  have hblock : block (contents b.syms) b.firstLine (b.lastLine + 1) = B ++ [n] := by
    rw [hL]
    exact block_eq hA hB'
  have hmoved : movedDown (contents b.syms) b.firstLine b.lastLine =
      (contents b.syms).take b.firstLine ++ (n :: B) ++
        (contents b.syms).drop (b.lastLine + 1 + 1) := by
    rw [hL, List.take_left' hA, drop_block hA hB', List.append_assoc B, List.singleton_append,
      movedDown_eq hA hlen, List.append_assoc]
  have hperm : ([n] ++ B).Perm (B ++ [n]) := List.perm_append_comm
  have hrun := hbecomes (n :: B) (hblock ▸ hperm)
  rw [hmoved]
  have hsplit : strsplit (strjoinv (B ++ [n])) = B ++ [n] :=
    hblock ▸ strsplit_block (by omega) hlast'
  have hfirst : line b.syms b.getSelectedLines.start = b.firstLine := rfl
  have hlast'' : line b.syms b.getSelectedLines.stop = b.lastLine := rfl
  rw [moveLines, if_neg (by decide)]
  simp only [hfirst, hlast'']
  rw [if_neg (by omega)]
  simp only [show ¬ (1 : ℤ) < 0 by decide, if_false, htext, hblock, hsplit]
  simpa [Becomes] using hrun

/-- The lines that are selected when they have been moved down, without an empty last one. -/
theorem moveLines_selected (hinsert : b.insert ≤ b.syms.length)
    (hbound : b.selectionBound ≤ b.syms.length) (hlt : b.lastLine + 1 < (contents b.syms).length)
    (hcount : (b.moveLines 1).syms.countP Sym.isEol = b.syms.countP Sym.isEol) :
    (b.moveLines 1).insert ≤ (b.moveLines 1).syms.length ∧
      (b.moveLines 1).selectionBound ≤ (b.moveLines 1).syms.length ∧
      (b.moveLines 1).firstLine = b.firstLine + 1 ∧
      (b.moveLines 1).lastLine = if b.firstLine < b.lastLine ∧
        (contents (b.moveLines 1).syms)[b.lastLine + 1]? = some [] then b.lastLine
      else b.lastLine + 1 := by
  obtain ⟨hle, -, -, -, hselection, -, hsame⟩ := getSelectedLines_spec hinsert hbound
  have hfirst : line b.syms b.getSelectedLines.start = b.firstLine := rfl
  have hlast : line b.syms b.getSelectedLines.stop = b.lastLine := rfl
  rw [length_contents] at hlt
  obtain ⟨b', offset, hmove⟩ : ∃ (b' : SelectedText) (offset : ℕ), b.moveLines 1 =
      b'.selectLines (b.firstLine + 1) (b.lastLine + 1) b.getSelectedLines.hasSelection offset := by
    rw [moveLines, if_neg (by decide)]
    simp only [hfirst, hlast]
    rw [if_neg (by omega)]
    exact ⟨_, _, rfl⟩
  rw [hmove, selectLines_syms] at hcount
  rw [hmove, selectLines_syms]
  obtain ⟨hle₁, hle₂⟩ := @selectLines_le b' (b.firstLine + 1) (b.lastLine + 1) (by omega) (by omega)
    b.getSelectedLines.hasSelection offset
  refine ⟨hle₁, hle₂, ?_⟩
  cases hsel : b.getSelectedLines.hasSelection with
  | true =>
    have hselect := @selectLines_select b' (b.firstLine + 1) (b.lastLine + 1) (by omega) (by omega)
      offset
    simpa using hselect
  | false =>
    have heq : b.firstLine = b.lastLine := hsame (by simpa [hselection] using hsel)
    rw [heq, if_neg (by simp)]
    exact selectLines_cursor (by omega) offset

/-- The selected lines moved down and up again. -/
theorem moveLines_back (hinsert : b.insert ≤ b.syms.length)
    (hbound : b.selectionBound ≤ b.syms.length) (hlt : b.lastLine + 1 < (contents b.syms).length)
    (hends : ∀ e ∈ ((ends b.syms).take (b.lastLine + 1)).drop b.firstLine, e = .eol .lf) :
    text ((b.moveLines 1).moveLines (-1)).syms = text b.syms ↔
      (b.firstLine < b.lastLine → (contents b.syms)[b.lastLine]? = some [] →
        (contents b.syms)[b.lastLine + 1]? = some []) := by
  obtain ⟨hle, -⟩ := getSelectedLines_spec hinsert hbound
  obtain ⟨hdown, hdownEnds⟩ := moveLines_down hinsert hbound hlt hends
  obtain ⟨A, B', C', hL, hA, hB'⟩ := exists_block hle ((Nat.lt_succ_self _).trans hlt)
  obtain ⟨B, e, rfl⟩ : ∃ B e, B' = B ++ [e] := by
    rcases List.eq_nil_or_concat' B' with rfl | ⟨B, e, rfl⟩
    · simp at hB'
      omega
    · exact ⟨B, e, rfl⟩
  obtain ⟨n, C, rfl⟩ : ∃ n C, C' = n :: C := by
    refine List.exists_cons_of_ne_nil ?_
    rintro rfl
    rw [hL, List.length_append, List.append_nil, hA, hB'] at hlt
    omega
  have hlen : b.firstLine + B.length = b.lastLine := by
    rw [List.length_append, List.length_singleton] at hB'
    omega
  rw [hL, movedDown_eq hA hB'] at hdown
  have hcount : (b.moveLines 1).syms.countP Sym.isEol = b.syms.countP Sym.isEol := by
    rw [← length_ends, hdownEnds, length_ends]
  obtain ⟨hinsert', hbound', hfirst, hlast⟩ := moveLines_selected hinsert hbound hlt hcount
  have hA' : (A ++ B).length = b.lastLine := by rw [List.length_append, hA, hlen]
  have he : (contents b.syms)[b.lastLine]? = some e := by
    rw [hL, List.append_assoc B, ← List.append_assoc A]
    exact getElem?_append_cons hA'
  have hn : (contents b.syms)[b.lastLine + 1]? = some n := by
    rw [hL, ← List.append_assoc]
    exact getElem?_append_cons (by rw [List.length_append, hA, hB'])
  have he' : (contents (b.moveLines 1).syms)[b.lastLine + 1]? = some e := by
    rw [hdown, List.cons_append, List.append_assoc B, ← List.cons_append, ← List.append_assoc A]
    exact getElem?_append_cons (by rw [List.length_append, List.length_cons]; omega)
  have hends' (last : ℕ) (hle : last ≤ b.lastLine + 1) :
      ∀ e ∈ ((ends (b.moveLines 1).syms).take last).drop (b.firstLine + 1 - 1),
        e = .eol .lf := by
    intro e he
    rw [hdownEnds, Nat.add_sub_cancel] at he
    refine hends e (((List.take_sublist_take_left hle).drop _).subset he)
  rw [he, hn, Option.some_inj, Option.some_inj]
  simp only [he', Option.some_inj] at hlast
  have hup := moveLines_up hinsert' hbound' (by omega)
  rw [hfirst, hlast, hdown] at hup
  split_ifs at hup with hshrunk
  · obtain ⟨hcontents, hupEnds⟩ := hup (hends' _ (by omega))
    rw [List.cons_append, List.append_assoc B, List.singleton_append, ← List.cons_append,
      movedUp_eq (by omega) (by omega)] at hcontents
    have htext : text ((b.moveLines 1).moveLines (-1)).syms = text b.syms ↔
        contents ((b.moveLines 1).moveLines (-1)).syms = contents b.syms :=
      ⟨contents_inj (hupEnds.trans hdownEnds), fun h => text_congr h (hupEnds.trans hdownEnds)⟩
    rw [htext, hcontents, hL, List.append_assoc B, List.append_cancel_left_eq,
      List.append_cancel_left_eq, hshrunk.2]
    simp [hshrunk.1]
  · obtain ⟨hcontents, hupEnds⟩ := hup (hends' _ le_rfl)
    rw [movedUp_eq (by omega) (by omega)] at hcontents
    have htext := text_congr (hcontents.trans hL.symm) (hupEnds.trans hdownEnds)
    exact iff_of_true htext fun hlt hempty => absurd ⟨hlt, hempty⟩ hshrunk

theorem cmpLines_le_trans {l l' l'' : List Char} (h : cmpLines l l' ≤ 0)
    (h' : cmpLines l' l'' ≤ 0) : cmpLines l l'' ≤ 0 := by
  unfold cmpLines at *
  rcases h.lt_or_eq with hlt | heq
  · rcases h'.lt_or_eq with hlt' | heq'
    · exact (strcmp_trans hlt hlt').le
    · rwa [← strcmp_eq_zero.1 heq']
  · rwa [strcmp_eq_zero.1 heq]

theorem cmpLines_total (l l' : List Char) : cmpLines l l' ≤ 0 ∨ cmpLines l' l ≤ 0 := by
  have := strcmp_comm (Utf8.encode l) (Utf8.encode l')
  unfold cmpLines
  omega

/-- The selected lines of a block with two or more. -/
theorem sortLines_sorted (hinsert : b.insert ≤ b.syms.length)
    (hbound : b.selectionBound ≤ b.syms.length) (hlt : b.firstLine < b.lastLine)
    (hends : ∀ e ∈ ((ends b.syms).take b.lastLine).drop b.firstLine, e = .eol .lf)
    (hinside : (ends b.syms)[b.lastLine]? ≠ some (.eol .crlf)) :
    ∃ ls, ls.Perm (block (contents b.syms) b.firstLine b.lastLine) ∧
      ls.Pairwise (fun l l' => cmpLines l l' ≤ 0) ∧
      b.Becomes b.sortLines ((contents b.syms).take b.firstLine ++ ls ++
        (contents b.syms).drop (b.lastLine + 1)) := by
  obtain ⟨hle, hlast, hstart, hstop, hselection, hcrlf, hsame⟩ :=
    getSelectedLines_spec hinsert hbound
  obtain ⟨htext, hbecomes⟩ := becomes_replace hle hlast hends
  have hsel : b.getSelectedLines.hasSelection = true := by
    rw [hselection, bne_iff_ne]
    exact fun heq => hlt.ne (hsame heq)
  have hout : b.getSelectedLines.inside = false := by
    rw [← Bool.not_eq_true]
    exact fun h => hinside (hcrlf h)
  set sorted := (block (contents b.syms) b.firstLine b.lastLine).mergeSort
    fun a b => cmpLines a b ≤ 0
  have hperm : sorted.Perm (block (contents b.syms) b.firstLine b.lastLine) :=
    List.mergeSort_perm ..
  refine ⟨sorted, hperm, ?_, ?_⟩
  · have hpairwise : sorted.Pairwise fun l l' => decide (cmpLines l l' ≤ 0) = true :=
      List.pairwise_mergeSort
        (fun l l' l'' h h' => by
          simpa using cmpLines_le_trans (by simpa using h) (by simpa using h'))
        (fun l l' => by simpa using cmpLines_total l l') _
    simpa using hpairwise
  · have hrun := hbecomes sorted hperm
    rw [sortLines]
    simp only [hsel, hout, hstart, hstop, htext, strsplit_block hlt hlast,
      Bool.not_true, Bool.false_eq_true, if_false]
    simpa [Becomes] using hrun

/-- One line is left alone exactly if nothing is selected. -/
theorem sortLines_single (hinsert : b.insert ≤ b.syms.length)
    (hbound : b.selectionBound ≤ b.syms.length) :
    b.sortLines = b ↔ b.insert = b.selectionBound := by
  obtain ⟨-, -, -, -, hselection, -⟩ := getSelectedLines_spec hinsert hbound
  constructor
  · intro h
    by_contra hne
    have hsel : b.getSelectedLines.hasSelection = true := by rwa [hselection, bne_iff_ne]
    have hactions := congrArg userActions h
    simp [sortLines, hsel, replace] at hactions
  · intro heq
    have hsel : b.getSelectedLines.hasSelection = false := by simp [hselection, heq]
    rw [sortLines, hsel]
    rfl

theorem moveLines_top (h : b.firstLine = 0) : b.moveLines (-1) = b := by
  have hfirst : line b.syms b.getSelectedLines.start = 0 := h
  rw [moveLines, if_neg (by decide)]
  simp only [hfirst]
  rw [if_pos (.inl (by decide))]

theorem moveLines_bottom (h : b.lastLine + 1 = (contents b.syms).length) :
    b.moveLines 1 = b := by
  have hlast : line b.syms b.getSelectedLines.stop = b.lastLine := rfl
  rw [length_contents] at h
  rw [moveLines, if_neg (by decide)]
  simp only [hlast]
  rw [if_pos (.inr (by omega))]

/-- Where the lines around the selected ones end with `\n`, the operations are right exactly if not
a single line is selected, and if the line below the selected ones is empty when these are two or
more and the last of them is empty. -/
theorem lineOperations_iff (S : List Sym) (insert selectionBound : Fin (S.length + 1))
    (userActions : ℕ) :
    let b : SelectedText := ⟨S, insert, selectionBound, userActions⟩
    b.OnlyLf → (b.LineOperations ↔
      (b.firstLine = b.lastLine → b.insert = b.selectionBound) ∧
      (b.firstLine < b.lastLine → (contents S)[b.lastLine]? = some [] →
        ∀ l ∈ (contents S)[b.lastLine + 1]?, l = [])) := by
  intro b h
  have hinsert : b.insert ≤ b.syms.length := Nat.le_of_lt_succ insert.isLt
  have hbound : b.selectionBound ≤ b.syms.length := Nat.le_of_lt_succ selectionBound.isLt
  have hsingle := sortLines_single hinsert hbound
  have hback (hlen : b.lastLine + 1 < (contents b.syms).length) :=
    moveLines_back hinsert hbound hlen (h.of_le (by omega) le_rfl)
  constructor
  · intro hops
    refine ⟨fun heq => hsingle.1 (hops.single heq), fun hlt hempty l hl => ?_⟩
    have hlen : b.lastLine + 1 < (contents b.syms).length := (List.getElem?_eq_some_iff.1 hl).1
    have hbelow := (hback hlen).1 (hops.back hlen) hlt hempty
    rw [hl] at hbelow
    exact Option.some.inj hbelow
  · rintro ⟨hsel, hempty⟩
    have hup (hpos : 0 < b.firstLine) :=
      moveLines_up hinsert hbound hpos (h.of_le le_rfl (by omega))
    have hdown (hlen : b.lastLine + 1 < (contents b.syms).length) :=
      moveLines_down hinsert hbound hlen (h.of_le (by omega) le_rfl)
    refine ⟨hup, moveLines_top, hdown, moveLines_bottom, fun hlen => ?_, fun hlt => ?_,
      fun heq => hsingle.2 (hsel heq)⟩
    · refine (hback hlen).2 fun hlt hlast => ?_
      have hget := List.getElem?_eq_getElem hlen
      rw [hget, hempty hlt hlast _ hget]
    · refine sortLines_sorted hinsert hbound hlt (h.of_le (by omega) (by omega)) fun hcrlf => ?_
      have hle : b.firstLine - 1 ≤ b.lastLine := by omega
      simpa using h _ (mem_block hle hcrlf)

/-- Two of three lines are selected. -/
theorem lineOperations_three_lines :
    LineOperations ⟨paragraphs ['b', '\n', 'a', '\n', 'c'], 0, 3, 0⟩ :=
  (lineOperations_iff (paragraphs ['b', '\n', 'a', '\n', 'c']) 0 3 0
    (by unfold OnlyLf; decide)).2 ⟨by decide, by decide⟩

/-- Two lines, the second of which is empty, moved down and up again: the empty one is selected no
more and stays where it was moved to. -/
theorem moveLines_empty_last :
    let b : SelectedText := ⟨paragraphs ['a', '\n', '\n', 'b'], 0, 3, 0⟩
    b.firstLine = 0 ∧ b.lastLine = 1 ∧ text (b.moveLines 1).syms = ['b', '\n', 'a', '\n'] ∧
      text ((b.moveLines 1).moveLines (-1)).syms = ['a', '\n', 'b', '\n'] := by
  decide

end SelectedText

end Medit
