import Medit.Library.CharLines
import Medit.Library.Rounds
import Medit.Search.Batch

/-!
# Replacing all matches of a regular expression

The two loops of `mootextsearch.cpp`: one collects the matches and leaves the buffer as it is, and
the other replaces each of them before it looks for the next one. GLib's regular expressions and
GTK's lines are parameters.

## Main definitions

* `GtkText`, `MooRegex` — what the loops use of GTK and of GLib.
* `isRepeatedEmptyMatch` — `is_repeated_empty_match`.
* `batchRound` — one search in one window of `batch_collect_regex`, with what follows a match.
* `interactiveRound` — the same of `moo_text_replace_regex_all_real` with a callback.
-/

namespace Medit

/-! ## GTK and GLib -/

/-- Buffers with the functions of iterators, which are offsets. A line that is behind another one
is behind everything on it. -/
structure GtkText (B : Type*) where
  chars : B → List Char
  /-- `gtk_text_iter_set_line_offset` with 0 -/
  lineStart : B → ℕ → ℕ
  forwardLines : B → ℕ → ℕ → ℕ
  endsLine : B → ℕ → Bool
  forwardToLineEnd : B → ℕ → ℕ
  /-- `gtk_text_iter_forward_line`, or nothing where it returns `FALSE`. -/
  forwardLine : B → ℕ → Option ℕ
  delete : B → ℕ → ℕ → B
  insert : B → ℕ → List Char → B
  lineStart_le : ∀ b i, lineStart b i ≤ i
  forwardLines_le : ∀ b i n, i ≤ (chars b).length →
    i ≤ forwardLines b i n ∧ forwardLines b i n ≤ (chars b).length
  forwardToLineEnd_le : ∀ b i, i ≤ (chars b).length →
    i ≤ forwardToLineEnd b i ∧ forwardToLineEnd b i ≤ (chars b).length
  forwardLine_lt : ∀ b i j, i ≤ (chars b).length → forwardLine b i = some j →
    j ≤ (chars b).length ∧ lineStart b j = j ∧ ∀ k, lineStart b k ≤ i → k < j
  chars_delete : ∀ b i j, i ≤ j → chars (delete b i j) = (chars b).take i ++ (chars b).drop j
  chars_insert : ∀ b i t, chars (insert b i t) = (chars b).take i ++ (t ++ (chars b).drop i)

/-- `gtk_text_buffer_get_slice` -/
def GtkText.slice {B : Type*} (G : GtkText B) (b : B) (i j : ℕ) : List Char :=
  ((G.chars b).take j).drop i

/-- `gtk_text_iter_forward_lines` -/
def charForwardLines (t : List Char) (i : ℕ) : ℕ → ℕ
  | 0 => i
  | n + 1 => charForwardLines t (CharLines.nextLine t i) n

section CharText

open CharLines

theorem charForwardLines_le (t : List Char) (i n : ℕ) (h : i ≤ t.length) :
    i ≤ charForwardLines t i n ∧ charForwardLines t i n ≤ t.length := by
  induction n generalizing i with
  | zero => exact ⟨le_rfl, h⟩
  | succ n ih =>
    obtain ⟨hle, hlen⟩ := ih _ (nextLine_le_length h)
    exact ⟨(le_nextLine t i).trans hle, hlen⟩

theorem charForwardToLineEnd_le (t : List Char) (i : ℕ) (h : i ≤ t.length) :
    i ≤ forwardToLineEnd t i ∧ forwardToLineEnd t i ≤ t.length := by
  have huntil (j : ℕ) (hj : j ≤ t.length) : j + (untilDelim (t.drop j)).length ≤ t.length := by
    have hlen := (List.takeWhile_prefix (l := t.drop j) fun c => !Paragraphs.isDelim c).length_le
    rw [List.length_drop] at hlen
    simp only [untilDelim]
    omega
  simp only [forwardToLineEnd, forwardLine]
  split_ifs with hnil hlt
  · exact ⟨Nat.le_add_right _ _, huntil i h⟩
  · exact ⟨(le_nextLine t i).trans (Nat.le_add_right _ _), huntil _ hlt.le⟩
  · exact ⟨h, le_rfl⟩

theorem charForwardLine_lt (t : List Char) (i j : ℕ) (h : i ≤ t.length)
    (hj : forwardLine t i = some j) :
    j ≤ t.length ∧ lineStart t j = j ∧ ∀ k, lineStart t k ≤ i → k < j := by
  simp only [forwardLine, Option.ite_none_right_eq_some, Option.some.injEq] at hj
  obtain ⟨hlt, rfl⟩ := hj
  have hstarts := (startsLine_nextLine h).resolve_right hlt.ne
  have hi := lt_nextLine ((le_nextLine t i).trans_lt hlt)
  refine ⟨hlt.le, ?_, fun k hk => ?_⟩
  · by_contra hne
    have hless := lt_of_le_of_ne (lineStart_le t _) hne
    simp [startsLine_of_lineStart_lt hless le_rfl] at hstarts
  · by_contra hge
    simp [startsLine_of_lineStart_lt (hk.trans_lt hi) (not_lt.1 hge)] at hstarts

/-- A buffer that is its characters. -/
def charText : GtkText (List Char) where
  chars := id
  lineStart := lineStart
  forwardLines := charForwardLines
  endsLine := endsLine
  forwardToLineEnd := forwardToLineEnd
  forwardLine := forwardLine
  delete t i j := t.take i ++ t.drop j
  insert t i text := t.take i ++ (text ++ t.drop i)
  lineStart_le := lineStart_le
  forwardLines_le := charForwardLines_le
  forwardToLineEnd_le := charForwardToLineEnd_le
  forwardLine_lt := charForwardLine_lt
  chars_delete _ _ _ _ := rfl
  chars_insert _ _ _ := rfl

end CharText

/-- A regular expression: a match in a text, looked for from a position. -/
structure MooRegex where
  matchFull : List Char → ℕ → Option (ℕ × ℕ)
  nLines : ℕ
  matchFull_le : ∀ text pos start stop, matchFull text pos = some (start, stop) →
    pos ≤ start ∧ start ≤ stop ∧ stop ≤ text.length

/-- `replacement` with `const_replacement`. The references of a match are found again from the text
and the position it was looked for in. -/
structure Replacement where
  const : Option (List Char)
  expandReferences : List Char → ℕ → Option (List Char)

/-- `expand_match_replacement` -/
def Replacement.expandMatch (r : Replacement) (text : List Char) (pos : ℕ) : Option (List Char) :=
  match r.const with
  | some replacement => some replacement
  | none => r.expandReferences text pos

/-- `is_repeated_empty_match`, with `was_zero_match` after it. -/
def isRepeatedEmptyMatch (matchLen : ℕ) (matchAtStart wasZeroMatch : Bool) : Bool × Bool :=
  if matchLen ≠ 0 then (false, false)
  else if wasZeroMatch && matchAtStart then (true, false)
  else (false, true)

variable {B : Type*} (G : GtkText B) (regex : MooRegex) (replacement : Replacement)

/-- The end of the lines that are searched from an iterator on. -/
def windowEnd (b : B) (i : ℕ) : ℕ :=
  let stop := G.forwardLines b i (regex.nLines - 1)
  if G.endsLine b stop then stop else G.forwardToLineEnd b stop

/-! ## In a batch -/

/-- The cursor is its number of characters. -/
structure RegexWindow where
  text : List Char
  offset : ℕ
  firstLineChars : ℕ
  stop : ℕ
  cursorOffset : ℕ

def regexWindowLoad (b : B) (line : ℕ) : RegexWindow :=
  let s := G.lineStart b line
  let stop := windowEnd G regex b s
  let text := G.slice b s stop
  ⟨text, s, (text.takeWhile (· ≠ '\n')).length, stop, 0⟩

def RegexWindow.seek (w : RegexWindow) (pos : ℕ) : RegexWindow :=
  { w with cursorOffset := pos - w.offset }

/-- The variables of `batch_collect_regex`. -/
structure BatchState where
  w : RegexWindow
  start : ℕ
  search : ℕ
  prevEnd : Option ℕ
  prevEndPtr : Option ℕ
  wasZeroMatch : Bool
  matchesArray : List BatchMatch
  count : ℕ

def batchStart (b : B) (start : ℕ) : BatchState where
  w := regexWindowLoad G regex b start
  start := start
  search := start
  prevEnd := none
  prevEndPtr := none
  wasZeroMatch := false
  matchesArray := []
  count := 0

namespace BatchState

def result (s : BatchState) : List BatchMatch × ℕ := (s.matchesArray, s.count)

/-- The search goes on from the start of the next round. -/
def goOn (s : BatchState) (start : ℕ) : BatchState := { s with start := start, search := start }

/-- A match at these places of the window text is added. -/
def add (s : BatchState) (startPos endPos : ℕ) (text : List Char) : BatchState :=
  let prevEndPtr := s.prevEndPtr.or <|
    (s.prevEnd.filter (s.w.offset ≤ ·)).map (· - s.w.offset)
  let gap := (prevEndPtr.map ((s.w.text.take startPos).drop ·)).filter ('\n' ∉ ·)
  { s with
    matchesArray := batchAdd s.matchesArray (s.w.offset + startPos) (s.w.offset + endPos) text gap
    count := s.count + 1
    prevEnd := some (s.w.offset + endPos)
    prevEndPtr := some endPos }

end BatchState

/-- The window is the one of the line that the search goes on in. -/
def batchWindow (b : B) (s : BatchState) : BatchState :=
  if s.w.offset + s.w.firstLineChars < s.search then
    { s with w := regexWindowLoad G regex b s.search, prevEndPtr := none }
  else s

/-- What follows a match that is not stepped over: it ends at `match_end`, and `text` is its
`real_replacement`. -/
def batchReplace (nChars : ℕ) (s : BatchState) (startPos endPos matchEnd : ℕ) (text : List Char) :
    BatchState ⊕ List BatchMatch × ℕ :=
  let s := if startPos < endPos ∨ text ≠ [] then s.add startPos endPos text else s
  if s.wasZeroMatch ∧ text = [] then
    if nChars ≤ matchEnd then .inr s.result
    else .inl ({ s with wasZeroMatch := false }.goOn (matchEnd + 1))
  else .inl (s.goOn matchEnd)

/-- What follows a match at these places of the window text. -/
def batchMatch (b : B) (limit : Option ℕ) (s : BatchState) (startPos endPos : ℕ) :
    BatchState ⊕ List BatchMatch × ℕ :=
  let nChars := (G.chars b).length
  let searchPos := s.w.cursorOffset
  let s := { s with w := s.w.seek (s.w.offset + startPos) }
  let matchStart := s.w.offset + s.w.cursorOffset
  if limit.any (· < matchStart) then .inr s.result
  else
    let matchEnd := matchStart + (endPos - startPos)
    let (repeated, wasZeroMatch) :=
      isRepeatedEmptyMatch (endPos - startPos) (matchStart = s.start) s.wasZeroMatch
    let s := { s with wasZeroMatch := wasZeroMatch }
    if repeated then
      if nChars ≤ s.start + 1 then .inr s.result else .inl (s.goOn (s.start + 1))
    else
      match replacement.expandMatch s.w.text searchPos with
      | none => .inr s.result
      | some text => batchReplace nChars s startPos endPos matchEnd text

/-- One search of `batch_collect_regex`: in the window, and then in the next one or after the
match. -/
def batchRound (b : B) (limit : Option ℕ) (s : BatchState) : BatchState ⊕ List BatchMatch × ℕ :=
  let s := batchWindow G regex b s
  let s := { s with w := s.w.seek s.search }
  match regex.matchFull s.w.text s.w.cursorOffset with
  | some (startPos, endPos) => batchMatch G replacement b limit s startPos endPos
  | none =>
    match G.forwardLine b s.w.stop with
    | none => .inr s.result
    | some it =>
      if limit.any (· < it) then .inr s.result
      else
        let w := regexWindowLoad G regex b it
        .inl { s with w := w, prevEndPtr := none, search := w.offset }

/-! ## With a callback -/

inductive MooTextReplaceResponse where
  | stop
  | skip
  | doReplace
  | all
  deriving DecidableEq

/-- The lines that `_moo_text_search_regex_forward` looks at. -/
structure SearchWindow where
  start : ℕ
  startOffset : ℕ
  stop : ℕ

/-- What `_moo_text_search_regex_forward` returns, with the text and the position that
`match_info` is about. -/
structure RegexMatch where
  start : ℕ
  stop : ℕ
  string : List Char
  pos : ℕ
  matchLen : ℕ

/-- `_moo_text_search_regex_forward` before its loop. -/
def searchRegexForward (b : B) (searchStart : ℕ) : SearchWindow :=
  let start := G.lineStart b searchStart
  ⟨start, searchStart - start, windowEnd G regex b searchStart⟩

/-- A round of the loop of `_moo_text_search_regex_forward`. -/
def searchRegexRound (b : B) (searchEnd : Option ℕ) (w : SearchWindow) :
    SearchWindow ⊕ Option RegexMatch :=
  let text := G.slice b w.start w.stop
  match regex.matchFull text w.startOffset with
  | some (startPos, endPos) =>
    let matchStart := w.start + startPos
    if searchEnd.any (· < matchStart) then .inr none
    else .inr (some ⟨matchStart, matchStart + (endPos - startPos), text, w.startOffset,
      endPos - startPos⟩)
  | none =>
    match G.forwardLine b w.stop with
    | none => .inr none
    | some start =>
      if searchEnd.any (· < start) then .inr none
      else .inl ⟨start, 0, windowEnd G regex b start⟩

/-- The variables of `moo_text_replace_regex_all_real`, with the search that is made, and the number
of answers of the callback. -/
structure ReplaceState (B : Type*) where
  buffer : B
  start : ℕ
  endMark : Option ℕ
  search : SearchWindow
  wasZeroMatch : Bool
  response : MooTextReplaceResponse
  answers : ℕ
  count : ℕ

def replaceStart (b : B) (start : ℕ) (endMark : Option ℕ) : ReplaceState B where
  buffer := b
  start := start
  endMark := endMark
  search := searchRegexForward G regex b start
  wasZeroMatch := false
  response := .doReplace
  answers := 0
  count := 0

namespace ReplaceState

def result (s : ReplaceState B) : B × ℕ := (s.buffer, s.count)

/-- The next round starts with a search. -/
def goOn (s : ReplaceState B) (start : ℕ) : ReplaceState B :=
  { s with start := start, search := searchRegexForward G regex s.buffer start }

/-- `replace_match` -/
def replaceMatch (s : ReplaceState B) (m : RegexMatch) (text : List Char) : ReplaceState B :=
  { s with
    buffer := G.insert (G.delete s.buffer m.start m.stop) m.start text
    endMark := s.endMark.map fun mark =>
      markAfterInsert true m.start text.length (markAfterDelete m.start m.stop mark)
    count := s.count + 1 }

/-- The callback is asked unless it has answered that all are to be replaced. -/
def ask (func : ℕ → MooTextReplaceResponse) (s : ReplaceState B) : ReplaceState B :=
  if s.response = .all then s else { s with response := func s.answers, answers := s.answers + 1 }

end ReplaceState

/-- What follows the answer about a match: `text` is its `real_replacement`. -/
def interactiveReplace (s : ReplaceState B) (m : RegexMatch) (text : List Char) :
    ReplaceState B ⊕ B × ℕ :=
  let replaced := s.response ≠ .skip ∧ (m.matchLen ≠ 0 ∨ text ≠ [])
  let matchEnd := if replaced then m.start + text.length else m.stop
  let s := if replaced then s.replaceMatch G m text else s
  if s.wasZeroMatch ∧ text = [] then
    if (G.chars s.buffer).length ≤ matchEnd then .inr s.result
    else .inl ({ s with wasZeroMatch := false }.goOn G regex (matchEnd + 1))
  else .inl (s.goOn G regex matchEnd)

/-- What follows a match. -/
def interactiveMatch (func : ℕ → MooTextReplaceResponse) (s : ReplaceState B) (m : RegexMatch) :
    ReplaceState B ⊕ B × ℕ :=
  let (repeated, wasZeroMatch) :=
    isRepeatedEmptyMatch m.matchLen (m.start = s.start) s.wasZeroMatch
  let s := { s with wasZeroMatch := wasZeroMatch }
  if repeated then
    if (G.chars s.buffer).length ≤ s.start + 1 then .inr s.result
    else .inl (s.goOn G regex (s.start + 1))
  else
    match replacement.expandMatch m.string m.pos with
    | none => .inr s.result
    | some text =>
      let s := s.ask func
      if s.response = .stop then .inr s.result else interactiveReplace G regex s m text

/-- One search of `moo_text_replace_regex_all_real`: in a window, and then in the next one or after
the match. -/
def interactiveRound (func : ℕ → MooTextReplaceResponse) (s : ReplaceState B) :
    ReplaceState B ⊕ B × ℕ :=
  match searchRegexRound G regex s.buffer s.endMark s.search with
  | .inl search => .inl { s with search := search }
  | .inr none => .inr s.result
  | .inr (some m) => interactiveMatch G regex replacement func s m

/-- `b*` in one line: the longest match at the position. -/
def manyB : MooRegex where
  matchFull text pos :=
    if pos ≤ text.length then some (pos, pos + ((text.drop pos).takeWhile (· = 'b')).length)
    else none
  nLines := 1
  matchFull_le text pos start stop h := by
    split_ifs at h with hpos
    obtain ⟨rfl, rfl⟩ := Prod.mk.inj (Option.some.inj h)
    have := (List.takeWhile_prefix (l := text.drop pos) fun c => decide (c = 'b')).length_le
    rw [List.length_drop] at this
    omega

example : Rounds.run (interactiveRound charText manyB ⟨some ['-'], fun _ _ => none⟩ fun _ => .all) 5
    (replaceStart charText manyB ['a', 'b', 'c'] 0 none) =
      .inr (['-', 'a', '-', '-', 'c'], 3) := by rfl

end Medit
