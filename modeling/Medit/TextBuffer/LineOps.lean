import Medit.Library.SymLines
import Medit.Library.Utf8
import Medit.Library.CString
import Medit.Lsp.PositionUnits

/-!
# The line operations

Moving the selected lines and sorting them. A line is cut off at `\n` only, where a buffer has other
ends of lines too.

## Main definitions

* `SelectedText` — a buffer with its two selection marks.
* `SelectedText.moveLines`, `SelectedText.sortLines` — the operations.
* `SelectedText.LineOperations` — what they are for.

## Main results

* `SelectedText.getSelectedLines_spec` — the lines that are selected.
* `SelectedText.becomes_replace` — whole lines replaced by the same ones in another order.
* `SelectedText.selectLines_select` — the lines that are selected afterwards.
-/

namespace Medit

open Paragraphs CString

/-- The text of a buffer, its marks, and how often it has been changed as one undo step. -/
structure SelectedText where
  syms : List Sym
  insert : ℕ
  selectionBound : ℕ
  userActions : ℕ
  deriving DecidableEq

namespace SelectedText

/-! ## Iterators -/

/-- `gtk_text_iter_get_line` -/
def line (S : List Sym) (i : ℕ) : ℕ := (S.take i).countP Sym.isEol

/-- Where `gtk_text_iter_set_line_offset (iter, 0)` goes to. -/
def lineStart (S : List Sym) : ℕ → ℕ
  | 0 => 0
  | i + 1 => if S[i]?.any Sym.isEol then i + 1 else lineStart S i

/-- `gtk_text_iter_starts_line` -/
def startsLine (S : List Sym) (i : ℕ) : Prop := lineStart S i = i

instance (S : List Sym) (i : ℕ) : Decidable (startsLine S i) :=
  inferInstanceAs (Decidable (_ = _))

/-- The end of a line, where `gtk_text_iter_forward_to_line_end` goes to unless it is there. -/
def lineEnd (S : List Sym) (i : ℕ) : ℕ := i + toLineEnd (S.drop i)

/-- `gtk_text_buffer_get_iter_at_line` -/
def getIterAtLine (S : List Sym) (n : ℕ) : ℕ := (iterAtLine n S).getD S.length

/-- `gtk_text_iter_forward_char` over at most so many characters of a line. -/
def walkLine : ℕ → List Sym → ℕ
  | offset + 1, .char .. :: S => walkLine offset S + 1
  | _, _ => 0

/-! ## Lines as strings -/

/-- `g_strsplit (text, "\n", -1)` -/
def strsplit (t : List Char) : List (List Char) := if t = [] then [] else t.splitOn '\n'

/-- `g_strjoinv ("\n", lines)` -/
def strjoinv (lines : List (List Char)) : List Char := List.intercalate ['\n'] lines

/-- `cmp_lines` -/
def cmpLines (a b : List Char) : ℤ := strcmp (Utf8.encode a) (Utf8.encode b)

/-! ## The operations -/

/-- What `get_selected_lines` finds. Its end is between the two characters of a `\r\n` where it went
back over them. -/
structure SelectedLines where
  start : ℕ
  stop : ℕ
  inside : Bool
  hasSelection : Bool

/-- `get_selected_lines` -/
def getSelectedLines (b : SelectedText) : SelectedLines :=
  let start := lineStart b.syms (min b.insert b.selectionBound)
  let stop := max b.insert b.selectionBound
  if startsLine b.syms stop ∧ line b.syms start < line b.syms stop then
    ⟨start, stop - 1, b.syms[stop - 1]? == some (.eol .crlf), b.insert != b.selectionBound⟩
  else ⟨start, lineEnd b.syms stop, false, b.insert != b.selectionBound⟩

/-- `select_lines` -/
def selectLines (b : SelectedText) (first last : ℕ) (select : Bool) (offset : ℕ) : SelectedText :=
  let start := getIterAtLine b.syms first
  if select then
    { b with insert := start, selectionBound := lineEnd b.syms (getIterAtLine b.syms last) }
  else
    let cursor := start + walkLine offset (b.syms.drop start)
    { b with insert := cursor, selectionBound := cursor }

/-- The text from `start` to `stop` is replaced in one user action. -/
def replace (b : SelectedText) (start stop : ℕ) (t : List Char) : SelectedText :=
  { b with
    syms := Paragraphs.insert (delete b.syms start stop) start t
    userActions := b.userActions + 1 }

/-- `_moo_text_buffer_move_lines` -/
def moveLines (b : SelectedText) (delta : ℤ) : SelectedText :=
  if delta ≠ 1 ∧ delta ≠ -1 then b
  else
    let offset := b.insert - lineStart b.syms b.insert
    let selected := b.getSelectedLines
    let first := line b.syms selected.start
    let last := line b.syms selected.stop
    if (first : ℤ) + delta < 0 ∨ (last : ℤ) + delta > b.syms.countP Sym.isEol then b
    else
      let start := getIterAtLine b.syms (if delta < 0 then first - 1 else first)
      let stop := lineEnd b.syms (getIterAtLine b.syms (if delta < 0 then last else last + 1))
      let lines := strsplit (text ((b.syms.take stop).drop start))
      let moved :=
        if delta < 0 then lines.tail ++ lines.head?.toList
        else lines.getLast?.toList ++ lines.dropLast
      (b.replace start stop (strjoinv moved)).selectLines (first + delta).toNat
        (last + delta).toNat selected.hasSelection offset

/-- The `\r\n` at `i` as the two characters it is made of. -/
def cutCrlf (S : List Sym) (i : ℕ) : List Sym :=
  S.take i ++ (.eol .cr :: .eol .lf :: S.drop (i + 1))

/-- `_moo_text_buffer_sort_lines` -/
def sortLines (b : SelectedText) : SelectedText :=
  let selected := b.getSelectedLines
  if !selected.hasSelection then b
  else
    let first := line b.syms selected.start
    let last := line b.syms selected.stop
    let syms := if selected.inside then cutCrlf b.syms selected.stop else b.syms
    let stop := if selected.inside then selected.stop + 1 else selected.stop
    let lines := strsplit (text ((syms.take stop).drop selected.start))
    let sorted := lines.mergeSort fun a b => cmpLines a b ≤ 0
    ({ b with syms := syms }.replace selected.start stop (strjoinv sorted)).selectLines first last
      true 0

/-! ## What they are for -/

/-- The number of the first selected line. -/
def firstLine (b : SelectedText) : ℕ := line b.syms b.getSelectedLines.start

/-- The number of the last selected line. -/
def lastLine (b : SelectedText) : ℕ := line b.syms b.getSelectedLines.stop

section Lists

variable {α : Type*}

/-- The lines from `first` to `last`. -/
def block (L : List α) (first last : ℕ) : List α := (L.take (last + 1)).drop first

/-- A block and the line above it in each other's place. -/
def movedUp (L : List α) (first last : ℕ) : List α :=
  L.take (first - 1) ++ (block L first last ++ block L (first - 1) (first - 1)) ++ L.drop (last + 1)

/-- A block and the line below it in each other's place. -/
def movedDown (L : List α) (first last : ℕ) : List α :=
  L.take first ++ (block L (last + 1) (last + 1) ++ block L first last) ++ L.drop (last + 2)

end Lists

/-- The lines of a buffer have become others, between the same ends. -/
def Becomes (b b' : SelectedText) (L : List (List Char)) : Prop :=
  contents b'.syms = L ∧ ends b'.syms = ends b.syms

/-- Moving and sorting lines as they should be. -/
structure LineOperations (b : SelectedText) : Prop where
  up : 0 < b.firstLine →
    b.Becomes (b.moveLines (-1)) (movedUp (contents b.syms) b.firstLine b.lastLine)
  top : b.firstLine = 0 → b.moveLines (-1) = b
  down : b.lastLine + 1 < (contents b.syms).length →
    b.Becomes (b.moveLines 1) (movedDown (contents b.syms) b.firstLine b.lastLine)
  bottom : b.lastLine + 1 = (contents b.syms).length → b.moveLines 1 = b
  back : b.lastLine + 1 < (contents b.syms).length →
    text ((b.moveLines 1).moveLines (-1)).syms = text b.syms
  sorted : b.firstLine < b.lastLine → ∃ ls,
    ls.Perm (block (contents b.syms) b.firstLine b.lastLine) ∧
    ls.Pairwise (fun l l' => cmpLines l l' ≤ 0) ∧
    b.Becomes b.sortLines ((contents b.syms).take b.firstLine ++ ls ++
      (contents b.syms).drop (b.lastLine + 1))
  single : b.firstLine = b.lastLine → b.sortLines = b

/-! ## Blocks -/

section Lists

variable {α : Type*} {A B C : List α} {n : α} {first last : ℕ}

theorem block_eq (hA : A.length = first) (hB : first + B.length = last + 1) :
    block (A ++ (B ++ C)) first last = B := by
  rw [block, ← List.append_assoc, List.take_left' (by rw [List.length_append, hA, hB]),
    List.drop_left' hA]

theorem drop_block (hA : A.length = first) (hB : first + B.length = last + 1) :
    (A ++ (B ++ C)).drop (last + 1) = C := by
  rw [← List.append_assoc, List.drop_left' (by rw [List.length_append, hA, hB])]

theorem getElem?_append_cons (hA : A.length = first) : (A ++ n :: C)[first]? = some n := by
  rw [← hA, List.getElem?_append_right le_rfl, Nat.sub_self, List.getElem?_cons_zero]

theorem mem_block {L : List α} (hle : first ≤ last) (h : L[last]? = some n) :
    n ∈ block L first last := by
  refine List.mem_of_getElem? (i := last - first) ?_
  rw [block, List.getElem?_drop, List.getElem?_take_of_lt (by omega), Nat.add_sub_cancel' hle, h]

/-- A list cut at a block of it. -/
theorem exists_block {L : List α} (hle : first ≤ last) (hlt : last < L.length) :
    ∃ A B C, L = A ++ (B ++ C) ∧ A.length = first ∧ first + B.length = last + 1 := by
  refine ⟨L.take first, (L.take (last + 1)).drop first, L.drop (last + 1), ?_, ?_, ?_⟩
  · have htake : L.take first = (L.take (last + 1)).take first := by
      rw [List.take_take, min_eq_left (by omega)]
    rw [htake, ← List.append_assoc, List.take_append_drop, List.take_append_drop]
  · rw [List.length_take]
    omega
  · rw [List.length_drop, List.length_take]
    omega

theorem movedDown_eq (hA : A.length = first) (hB : first + B.length = last + 1) :
    movedDown (A ++ (B ++ n :: C)) first last = A ++ (n :: B ++ C) := by
  have hn : A ++ (B ++ n :: C) = (A ++ B) ++ ([n] ++ C) := by simp
  have hlen : (A ++ B).length = last + 1 := by rw [List.length_append, hA, hB]
  have hdrop : (A ++ B ++ ([n] ++ C)).drop (last + 1 + 1) = C := drop_block hlen rfl
  rw [movedDown, block_eq hA hB, List.take_left' hA, hn, block_eq hlen rfl, hdrop]
  simp

theorem movedUp_eq (hA : A.length + 1 = first) (hB : first + B.length = last + 1) :
    movedUp (A ++ (n :: B ++ C)) first last = A ++ (B ++ n :: C) := by
  have hn : A ++ (n :: B ++ C) = (A ++ [n]) ++ (B ++ C) := by simp
  have hfirst : first - 1 = A.length := by omega
  have hlen : (A ++ [n]).length = first := by rw [List.length_append, List.length_singleton, hA]
  have hone : block (A ++ (n :: B ++ C)) A.length A.length = [n] :=
    block_eq (B := [n]) (C := B ++ C) rfl rfl
  rw [movedUp, hfirst, hone, List.take_left, hn, block_eq hlen hB, drop_block hlen hB]
  simp

end Lists

/-! ## Iterators of a line -/

section Iterators

variable {S P N Q : List Sym}

theorem line_eq (h : LineAt S P N Q) {k : ℕ} (hk : k ≤ N.length) :
    line S (P.length + k) = P.countP Sym.isEol := by
  rw [line, h.take_eq hk, List.countP_append,
    countP_line fun s hs => h.line s (List.mem_of_mem_take hs), Nat.add_zero]

theorem getIterAtLine_eq (h : LineAt S P N Q) :
    getIterAtLine S (P.countP Sym.isEol) = P.length := by
  rw [getIterAtLine, h.eq, iterAtLine_lines h.whole]
  rfl

theorem toLineEnd_eq (hN : ∀ s ∈ N, s.isEol = false) (hQ : EolFirst Q) :
    toLineEnd (N ++ Q) = N.length := by
  induction N with
  | nil => rcases hQ with rfl | ⟨d, Q, rfl⟩ <;> rfl
  | cons s N ih =>
    obtain ⟨hs, hrest⟩ := List.forall_mem_cons.1 hN
    cases s with
    | eol d => simp [Sym.isEol] at hs
    | char c hc => rw [List.cons_append, toLineEnd, ih hrest, List.length_cons]

theorem lineEnd_eq (h : LineAt S P N Q) {k : ℕ} (hk : k ≤ N.length) :
    lineEnd S (P.length + k) = P.length + N.length := by
  have hrest : ∀ s ∈ N.drop k, s.isEol = false := fun s hs => h.line s (List.mem_of_mem_drop hs)
  rw [lineEnd, h.drop_eq hk, toLineEnd_eq hrest h.eolFirst, List.length_drop]
  omega

theorem lineEnd_getIterAtLine (h : LineAt S P N Q) :
    lineEnd S (getIterAtLine S (P.countP Sym.isEol)) = P.length + N.length := by
  rw [getIterAtLine_eq h]
  exact lineEnd_eq h (Nat.zero_le _)

theorem lineStart_eq (h : LineAt S P N Q) {k : ℕ} (hk : k ≤ N.length) :
    lineStart S (P.length + k) = P.length := by
  induction k with
  | zero =>
    rw [Nat.add_zero, h.eq]
    rcases h.whole with rfl | ⟨P, d, rfl⟩
    · rfl
    · have hget : ((P ++ [.eol d]) ++ (N ++ Q))[P.length]? = some (.eol d) := by simp
      rw [List.length_append, List.length_singleton, lineStart, hget]
      rfl
  | succ k ih =>
    have hget : S[P.length + k]? = some N[k] := by
      rw [h.eq, List.getElem?_append_right (by omega), Nat.add_sub_cancel_left,
        List.getElem?_append_left (by omega), List.getElem?_eq_getElem (by omega)]
    rw [← Nat.add_assoc, lineStart, hget]
    simp only [Option.any_some, h.line _ (List.getElem_mem _), Bool.false_eq_true, if_false]
    exact ih (by omega)

theorem startsLine_iff (h : LineAt S P N Q) {k : ℕ} (hk : k ≤ N.length) :
    startsLine S (P.length + k) ↔ k = 0 := by
  rw [startsLine, lineStart_eq h hk]
  omega

/-- The end of the line behind which another starts. -/
theorem lineEnd_before (hP : Whole P) (hS : S = P ++ Q) (hpos : 0 < P.countP Sym.isEol) :
    lineEnd S (getIterAtLine S (P.countP Sym.isEol - 1)) = P.length - 1 ∧
      line S (P.length - 1) = P.countP Sym.isEol - 1 ∧
      S[P.length - 1]? = (ends S)[P.countP Sym.isEol - 1]? := by
  rcases hP with rfl | ⟨P, d, rfl⟩
  · simp at hpos
  · have hcount : (P ++ [Sym.eol d]).countP Sym.isEol = P.countP Sym.isEol + 1 := by
      simp [Sym.isEol]
    rw [List.append_assoc, List.singleton_append] at hS
    obtain ⟨P', N, Q', hat, hcount'⟩ := exists_lineAt P le_rfl
    have hQ' : Q' = [] := by
      rcases hat.eolFirst with rfl | ⟨d', Q', rfl⟩
      · rfl
      · have := congrArg (List.countP Sym.isEol) hat.eq
        rw [List.countP_append, List.countP_append, List.countP_cons, hcount'] at this
        simp [Sym.isEol] at this
    subst hQ'
    have hat' : LineAt S P' N (.eol d :: Q) :=
      ⟨by rw [hS, hat.eq]; simp, hat.whole, hat.line, .inr ⟨d, Q, rfl⟩⟩
    have hlen : P.length = P'.length + N.length := by
      rw [hat.eq]
      simp
    rw [hcount, Nat.add_sub_cancel, List.length_append, List.length_singleton, Nat.add_sub_cancel]
    refine ⟨?_, by rw [line, hS, List.take_left], ?_⟩
    · rw [← hcount', lineEnd_getIterAtLine hat', hlen]
    · rw [hS, List.getElem?_append_right le_rfl, Nat.sub_self, ends_append, ends_cons_eol,
        ← length_ends, List.getElem?_append_right le_rfl, Nat.sub_self]
      rfl

end Iterators

/-! ## The selected lines -/

variable {b : SelectedText}

theorem line_le_line (S : List Sym) {i j : ℕ} (h : i ≤ j) : line S i ≤ line S j := by
  have hsub := (List.take_sublist i (S.take j)).countP_le (p := Sym.isEol)
  rwa [List.take_take, min_eq_left h] at hsub

theorem line_le (S : List Sym) (i : ℕ) : line S i ≤ S.countP Sym.isEol :=
  (List.take_sublist i S).countP_le

/-- The selected lines go from the start of one line to the end of another. -/
theorem getSelectedLines_spec (hinsert : b.insert ≤ b.syms.length)
    (hbound : b.selectionBound ≤ b.syms.length) :
    b.firstLine ≤ b.lastLine ∧ b.lastLine ≤ b.syms.countP Sym.isEol ∧
    b.getSelectedLines.start = getIterAtLine b.syms b.firstLine ∧
    b.getSelectedLines.stop = lineEnd b.syms (getIterAtLine b.syms b.lastLine) ∧
    b.getSelectedLines.hasSelection = (b.insert != b.selectionBound) ∧
    (b.getSelectedLines.inside = true → (ends b.syms)[b.lastLine]? = some (.eol .crlf)) ∧
    (b.insert = b.selectionBound → b.firstLine = b.lastLine) := by
  obtain ⟨P, N, Q, hat, hle, hge⟩ :=
    exists_lineAt_of_le b.syms (i := min b.insert b.selectionBound) (by omega)
  obtain ⟨P', N', Q', hat', hle', hge'⟩ :=
    exists_lineAt_of_le b.syms (i := max b.insert b.selectionBound) (by omega)
  obtain ⟨k, hk⟩ := Nat.exists_eq_add_of_le hle
  obtain ⟨k', hk'⟩ := Nat.exists_eq_add_of_le hle'
  have hkN : k ≤ N.length := by omega
  have hkN' : k' ≤ N'.length := by omega
  have hstart : lineStart b.syms (min b.insert b.selectionBound) = P.length := by
    rw [hk, lineStart_eq hat hkN]
  have hfirst : line b.syms P.length = P.countP Sym.isEol := line_eq hat (Nat.zero_le _)
  have hlast : line b.syms (max b.insert b.selectionBound) = P'.countP Sym.isEol := by
    rw [hk', line_eq hat' hkN']
  have hmono : P.countP Sym.isEol ≤ P'.countP Sym.isEol := by
    rw [← hlast, ← line_eq hat hkN, ← hk]
    exact line_le_line _ (by omega)
  have hsame : b.insert = b.selectionBound → P.countP Sym.isEol = P'.countP Sym.isEol := by
    intro heq
    rw [← hlast, ← line_eq hat hkN, ← hk, heq, min_self, max_self]
  simp only [firstLine, lastLine, getSelectedLines, hstart, hfirst, hlast]
  split_ifs with hback
  · obtain ⟨hstarts, hlt⟩ := hback
    rw [hk', startsLine_iff hat' hkN'] at hstarts
    rw [hstarts, Nat.add_zero] at hk'
    obtain ⟨hend, hline, hget⟩ := lineEnd_before hat'.whole hat'.eq (by omega)
    simp only [hfirst, hk', hline]
    refine ⟨by omega, ?_, (getIterAtLine_eq hat).symm, hend.symm, trivial, ?_, ?_⟩
    · rw [← hline]
      exact line_le _ _
    · rw [← hget]
      simp
    · omega
  · have hend : lineEnd b.syms (max b.insert b.selectionBound) = P'.length + N'.length := by
      rw [hk', lineEnd_eq hat' hkN']
    have hline : line b.syms (P'.length + N'.length) = P'.countP Sym.isEol :=
      line_eq hat' le_rfl
    simp only [hfirst, hend, hline]
    refine ⟨hmono, ?_, (getIterAtLine_eq hat).symm, (lineEnd_getIterAtLine hat').symm, trivial,
      nofun, hsame⟩
    rw [← hline]
    exact line_le _ _

/-! ## Whole lines replaced -/

/-- The lines from `first` to `last`, and the text around them. -/
theorem exists_lines (S : List Sym) {first last : ℕ} (hle : first ≤ last)
    (hlast : last ≤ S.countP Sym.isEol) :
    ∃ P R Q, S = P ++ (R ++ Q) ∧ Whole P ∧ EolFirst Q ∧ P.countP Sym.isEol = first ∧
      first + R.countP Sym.isEol = last ∧ getIterAtLine S first = P.length ∧
      lineEnd S (getIterAtLine S last) = P.length + R.length := by
  obtain ⟨P', N', Q, hat', hcount'⟩ := exists_lineAt S hlast
  have hcount : (P' ++ N').countP Sym.isEol = last := by
    rw [List.countP_append, countP_line hat'.line, hcount', Nat.add_zero]
  obtain ⟨P, N, R, hat, hfirst⟩ := exists_lineAt (P' ++ N') (hcount ▸ hle)
  have heq : S = P ++ ((N ++ R) ++ Q) := by
    rw [hat'.eq, ← List.append_assoc, hat.eq, List.append_assoc]
  have hlen := congrArg List.length hat.eq
  simp only [List.length_append] at hlen
  refine ⟨P, N ++ R, Q, heq, hat.whole, hat'.eolFirst, hfirst, ?_, ?_, ?_⟩
  · rw [← hcount, hat.eq]
    simp only [List.countP_append, hfirst]
  · rw [← hfirst, getIterAtLine, heq, iterAtLine_lines hat.whole]
    rfl
  · rw [← hcount', lineEnd_getIterAtLine hat', List.length_append, hlen]

/-- Whole lines are replaced by the same ones in another order. -/
theorem becomes_replace {first last : ℕ} (hle : first ≤ last)
    (hlast : last ≤ b.syms.countP Sym.isEol)
    (hends : ∀ e ∈ ((ends b.syms).take last).drop first, e = .eol .lf) :
    text ((b.syms.take (lineEnd b.syms (getIterAtLine b.syms last))).drop
        (getIterAtLine b.syms first)) = strjoinv (block (contents b.syms) first last) ∧
      ∀ ls : List (List Char), ls.Perm (block (contents b.syms) first last) →
        b.Becomes (b.replace (getIterAtLine b.syms first)
            (lineEnd b.syms (getIterAtLine b.syms last)) (strjoinv ls))
          ((contents b.syms).take first ++ ls ++ (contents b.syms).drop (last + 1)) := by
  obtain ⟨P, R, Q, heq, hwhole, heolFirst, hfirst, hcount, hstart, hstop⟩ :=
    exists_lines b.syms hle hlast
  have hcontents (R : List Sym) : contents (P ++ (R ++ Q)) =
      (contents P).take first ++ contents R ++ (contents Q).tail := by
    rw [contents_append_whole hwhole, contents_append_eolFirst heolFirst, hfirst, List.append_assoc]
  have hlenP : ((contents P).take first).length = first := by
    rw [List.length_take_of_le]
    rw [length_contents]
    omega
  have hlenR : ((contents P).take first ++ contents R).length = last + 1 := by
    rw [List.length_append, hlenP, length_contents]
    omega
  have hblock : block (contents b.syms) first last = contents R := by
    rw [heq, hcontents, block, ← hlenR, List.take_left, List.drop_left' hlenP]
  have htake : (contents b.syms).take first = (contents P).take first := by
    rw [heq, hcontents, List.append_assoc, List.take_left' hlenP]
  have hdrop : (contents b.syms).drop (last + 1) = (contents Q).tail := by
    rw [heq, hcontents, List.drop_left' hlenR]
  have hendsR : ((ends b.syms).take last).drop first = ends R := by
    have hP : (ends P).length = first := by rw [length_ends, hfirst]
    have hR : (ends P ++ ends R).length = last := by
      rw [List.length_append, hP, length_ends, hcount]
    rw [heq, ends_append, ends_append, ← List.append_assoc, ← hR, List.take_left,
      List.drop_left' hP]
  rw [hendsR] at hends
  rw [hstart, hstop, hblock]
  refine ⟨?_, fun ls hperm => ?_⟩
  · rw [heq, ← List.append_assoc, ← List.length_append, List.take_left, List.drop_left,
      text_eq_intercalate hends, strjoinv]
  · have hsyms : (b.replace P.length (P.length + R.length) (strjoinv ls)).syms =
        P ++ (paragraphs (strjoinv ls) ++ Q) := by
      simp only [replace, delete, Paragraphs.insert, heq]
      rw [min_eq_left (Nat.le_add_right ..), max_eq_right (Nat.le_add_right ..), List.take_left,
        ← List.append_assoc P R, ← List.length_append, List.drop_left, List.take_left,
        List.drop_left]
    obtain ⟨hls, hlsEnds⟩ := contents_rejoin hends hperm
    refine ⟨?_, ?_⟩
    · rw [hsyms, hcontents, htake, hdrop, strjoinv, hls]
    · rw [hsyms, heq, ends_append, ends_append, strjoinv, hlsEnds, ends_append, ends_append]

/-- Two or more lines as one text and cut again. -/
theorem strsplit_block {first last : ℕ} (hlt : first < last)
    (hlast : last ≤ b.syms.countP Sym.isEol) :
    strsplit (strjoinv (block (contents b.syms) first last)) =
      block (contents b.syms) first last := by
  have hmem : ∀ l ∈ block (contents b.syms) first last, '\n' ∉ l := by
    intro l hl hn
    have hdelim := isDelim_of_mem_contents (List.mem_of_mem_take (List.mem_of_mem_drop hl)) hn
    simp [isDelim] at hdelim
  obtain ⟨l, l', ls, hls⟩ : ∃ l l' ls, block (contents b.syms) first last = l :: l' :: ls := by
    have hlen : 2 ≤ (block (contents b.syms) first last).length := by
      rw [block, List.length_drop, List.length_take, length_contents]
      omega
    obtain ⟨l, ls, hl⟩ := List.exists_cons_of_length_pos (by omega :
      0 < (block (contents b.syms) first last).length)
    rw [hl, List.length_cons] at hlen
    obtain ⟨l', ls, rfl⟩ := List.exists_cons_of_length_pos (by omega : 0 < ls.length)
    exact ⟨l, l', ls, hl⟩
  rw [hls] at hmem ⊢
  rw [strsplit, strjoinv, if_neg, List.splitOn_intercalate _ hmem (by simp)]
  simp [List.intercalate_cons_cons]

/-! ## The lines that are selected afterwards -/

@[simp] theorem selectLines_syms (first last : ℕ) (select : Bool) (offset : ℕ) :
    (b.selectLines first last select offset).syms = b.syms := by
  unfold selectLines
  split_ifs <;> rfl

@[simp] theorem selectLines_userActions (first last : ℕ) (select : Bool) (offset : ℕ) :
    (b.selectLines first last select offset).userActions = b.userActions := by
  unfold selectLines
  split_ifs <;> rfl

theorem walkLine_le (offset : ℕ) (S : List Sym) : walkLine offset S ≤ toLineEnd S := by
  fun_induction walkLine offset S with
  | case1 offset c h S ih => exact Nat.succ_le_succ ih
  | case2 => exact Nat.zero_le _

theorem selectLines_le {first last : ℕ} (hfirst : first ≤ b.syms.countP Sym.isEol)
    (hlast : last ≤ b.syms.countP Sym.isEol) (select : Bool) (offset : ℕ) :
    (b.selectLines first last select offset).insert ≤ b.syms.length ∧
      (b.selectLines first last select offset).selectionBound ≤ b.syms.length := by
  obtain ⟨P, N, Q, hat, rfl⟩ := exists_lineAt b.syms hfirst
  obtain ⟨P', N', Q', hat', rfl⟩ := exists_lineAt b.syms hlast
  have hlen := congrArg List.length hat.eq
  have hlen' := congrArg List.length hat'.eq
  simp only [List.length_append] at hlen hlen'
  have hwalk := (walkLine_le offset (b.syms.drop P.length)).trans (toLineEnd_le_length _)
  rw [List.length_drop] at hwalk
  unfold selectLines
  split_ifs
  · simp only [getIterAtLine_eq hat, lineEnd_getIterAtLine hat']
    omega
  · simp only [getIterAtLine_eq hat]
    omega

/-- A cursor on a line selects this line. -/
theorem selectLines_cursor {n : ℕ} (hn : n ≤ b.syms.countP Sym.isEol) (offset : ℕ) :
    (b.selectLines n n false offset).firstLine = n ∧
      (b.selectLines n n false offset).lastLine = n := by
  obtain ⟨P, N, Q, hat, rfl⟩ := exists_lineAt b.syms hn
  have hwalk := walkLine_le offset (b.syms.drop P.length)
  have hdrop := hat.drop_eq (Nat.zero_le _)
  rw [Nat.add_zero, List.drop_zero] at hdrop
  rw [hdrop, toLineEnd_eq hat.line hat.eolFirst, ← hdrop] at hwalk
  set k := walkLine offset (b.syms.drop P.length)
  have hfirst : line b.syms P.length = P.countP Sym.isEol := line_eq hat (Nat.zero_le _)
  simp only [firstLine, lastLine, selectLines, getSelectedLines, Bool.false_eq_true, if_false,
    getIterAtLine_eq hat, min_self, max_self]
  rw [show P.length + walkLine offset (b.syms.drop P.length) = P.length + k from rfl,
    lineStart_eq hat hwalk, hfirst, line_eq hat hwalk, if_neg (by simp)]
  exact ⟨hfirst, by rw [lineEnd_eq hat hwalk, line_eq hat le_rfl]⟩

/-- Selecting lines selects these lines, except for an empty last one. -/
theorem selectLines_select {first last : ℕ} (hle : first ≤ last)
    (hlast : last ≤ b.syms.countP Sym.isEol) (offset : ℕ) :
    (b.selectLines first last true offset).firstLine = first ∧
      (b.selectLines first last true offset).lastLine =
        if first < last ∧ (contents b.syms)[last]? = some [] then last - 1 else last := by
  obtain ⟨_, _, _, -, -, -, -, -, hs, he⟩ := exists_lines b.syms hle hlast
  obtain ⟨P, M, R, hatFirst, rfl⟩ := exists_lineAt b.syms (hle.trans hlast)
  obtain ⟨P', N, Q, hat, rfl⟩ := exists_lineAt b.syms hlast
  rw [getIterAtLine_eq hatFirst] at hs
  rw [lineEnd_getIterAtLine hat] at he
  have hmin : P.length ≤ P'.length + N.length := by omega
  have hstart : line b.syms P.length = P.countP Sym.isEol := line_eq hatFirst (Nat.zero_le _)
  have hstartLine : lineStart b.syms P.length = P.length := lineStart_eq hatFirst (Nat.zero_le _)
  have hstop : line b.syms (P'.length + N.length) = P'.countP Sym.isEol := line_eq hat le_rfl
  have hempty : (contents b.syms)[P'.countP Sym.isEol]? = some [] ↔ N.length = 0 := by
    rw [hat.getElem?_contents, Option.some_inj, text_eq_nil, List.length_eq_zero_iff]
  simp only [firstLine, lastLine, selectLines, getSelectedLines, if_true,
    getIterAtLine_eq hatFirst, lineEnd_getIterAtLine hat, min_eq_left hmin, max_eq_right hmin,
    hstartLine, hstart, hstop, hempty, startsLine_iff hat le_rfl, lineEnd_eq hat le_rfl]
  by_cases hback : P.countP Sym.isEol < P'.countP Sym.isEol ∧ N.length = 0
  · obtain ⟨-, hline, -⟩ := lineEnd_before hat.whole hat.eq (by omega)
    rw [if_pos hback.symm, if_pos hback, hback.2, Nat.add_zero]
    exact ⟨hstart, hline⟩
  · rw [if_neg fun h => hback h.symm, if_neg hback]
    exact ⟨hstart, hstop⟩

end SelectedText

end Medit
