import Medit.Library.Leftmost
import Medit.TextBuffer.LineOps

/-!
# Comments

Translation of `moo_edit_comment_selection` and `moo_edit_uncomment_selection` from
`mooedit/mooedit.cpp`. A language has a string that comments a line out, or one in front of a block
and one behind it. No comment string has the end of a line in it, so `gtk_text_iter_forward_chars`
over as many characters as it has is taken as so many symbols of the buffer.

## Main definitions

* `SelectedText.commentSelection`, `SelectedText.uncommentSelection` — the two commands.
* `commented`, `uncommented` — a line with a comment string, and one without it.

## Main results

* `SelectedText.foldl_lines` — the lines after each of the two loops.
* `SelectedText.lineComment_mark` — where `line_comment` leaves a mark.
* `SelectedText.uncommentSelection_commentSelection_line` — what is commented out line by line comes
  back.
-/

namespace Medit

open Paragraphs CharLines

/-- The comment strings of a language. -/
structure MooLang where
  lineComment : Option (List Char)
  blockCommentStart : Option (List Char)
  blockCommentEnd : Option (List Char)

namespace SelectedText

/-! ## Marks -/

/-- A mark after an insertion; it has right gravity. -/
def markAfterInsert (pos len mark : ℕ) : ℕ := if pos ≤ mark then mark + len else mark

/-- A mark after a deletion. -/
def markAfterDelete (start stop mark : ℕ) : ℕ :=
  if mark ≤ start then mark else if mark ≤ stop then start else mark - (stop - start)

/-- `gtk_text_buffer_insert` -/
def insertText (b : SelectedText) (pos : ℕ) (t : List Char) : SelectedText :=
  { b with
    syms := Paragraphs.insert b.syms pos t
    insert := markAfterInsert pos (paragraphs t).length b.insert
    selectionBound := markAfterInsert pos (paragraphs t).length b.selectionBound }

/-- `gtk_text_buffer_delete` -/
def deleteText (b : SelectedText) (start stop : ℕ) : SelectedText :=
  { b with
    syms := delete b.syms start stop
    insert := markAfterDelete start stop b.insert
    selectionBound := markAfterDelete start stop b.selectionBound }

/-- The bounds of the selection, which are at the cursor if there is none. -/
def start (b : SelectedText) : ℕ := min b.insert b.selectionBound

def stop (b : SelectedText) : ℕ := max b.insert b.selectionBound

/-! ## Comments on lines -/

/-- The last line of a range; a line that the range only reaches is not one of its lines. -/
def lastCommentLine (S : List Sym) (start stop : ℕ) : ℕ :=
  if start ≠ stop ∧ startsLine S stop then line S stop - 1 else line S stop

/-- A round of the loop in `line_comment`. -/
def commentLine (commentString : List Char) (b : SelectedText) (i : ℕ) : SelectedText :=
  let iter := getIterAtLine b.syms i
  if b.syms[iter]?.all Sym.isEol then b.insertText iter commentString
  else b.insertText iter (commentString ++ [' '])

/-- `line_comment` -/
def lineComment (commentString : List Char) (start stop : ℕ) (b : SelectedText) : SelectedText :=
  let first := line b.syms start
  if commentString = [] then b
  else
    (List.range' first (lastCommentLine b.syms start stop + 1 - first)).foldl
      (commentLine commentString) b

/-- A round of the loop in `line_uncomment`. -/
def uncommentLine (commentString : List Char) (b : SelectedText) (i : ℕ) : SelectedText :=
  let start := getIterAtLine b.syms i
  let stop := start + commentString.length
  if text ((b.syms.drop start).take commentString.length) = commentString then
    b.deleteText start (if b.syms[stop]? = some (ofChar ' ') then stop + 1 else stop)
  else b

/-- `line_uncomment` -/
def lineUncomment (commentString : List Char) (start stop : ℕ) (b : SelectedText) : SelectedText :=
  let first := line b.syms start
  if commentString = [] then b
  else
    (List.range' first (lastCommentLine b.syms start stop + 1 - first)).foldl
      (uncommentLine commentString) b

/-! ## Comments around blocks -/

/-- `gtk_text_iter_backward_line` -/
def backwardLine (S : List Sym) (i : ℕ) : ℕ :=
  if lineStart S i = 0 then 0 else lineStart S (lineStart S i - 1)

/-- What `block_comment` comments out. -/
def blockRange (S : List Sym) (start stop : ℕ) : ℕ × ℕ :=
  if start = stop then (lineStart S start, lineEnd S stop)
  else if startsLine S stop then (start, lineEnd S (backwardLine S stop))
  else (start, stop)

/-- `block_comment`; the mark for the end has right gravity. -/
def blockComment (commentStart commentEnd : List Char) (start stop : ℕ) (b : SelectedText) :
    SelectedText :=
  if commentStart = [] ∨ commentEnd = [] then b
  else
    let range := blockRange b.syms start stop
    let endMark := markAfterInsert range.1 (paragraphs commentStart).length range.2
    (b.insertText range.1 commentStart).insertText endMark commentEnd

/-- `moo_text_search_forward`, without flags: the first occurrence, if it stops at most one
character behind the limit. -/
def searchForward (S : List Sym) (start : ℕ) (str : List Char) (limit : ℕ) : Option (ℕ × ℕ) :=
  (Leftmost.strstr (str.map ofChar) (S.drop start)).bind fun i =>
    if limit = S.length ∨ start + i + str.length ≤ limit + 1 then
      some (start + i, start + i + str.length)
    else none

/-- `gtk_text_iter_backward_search`: the last occurrence that stops in front of `start`, unless it
begins in front of the limit. -/
def searchBackward (S : List Sym) (start : ℕ) (str : List Char) (limit : ℕ) : Option (ℕ × ℕ) :=
  if start ≤ limit then none
  else
    (Leftmost.places (str.map ofChar) (S.take start)).getLast?.bind fun i =>
      if limit ≤ i then some (i, i + str.length) else none

/-- The end of what is commented out, for `block_uncomment`. -/
def blockStop (S : List Sym) (start stop : ℕ) : ℕ :=
  if start ≠ stop ∧ startsLine S stop then lineEnd S (backwardLine S stop) else stop

/-- `block_uncomment`, unless its assertion fails. -/
def blockUncomment (commentStart commentEnd : List Char) (start stop : ℕ) (b : SelectedText) :
    Option SelectedText :=
  if commentStart = [] ∨ commentEnd = [] then some b
  else
    let stop := blockStop b.syms start stop
    match (searchForward b.syms start commentStart stop).or
        (searchBackward b.syms start commentStart (lineStart b.syms stop)) with
    | none => some b
    | some (start1, start2) =>
      match (searchBackward b.syms stop commentEnd start2).or
          (searchForward b.syms stop commentEnd (lineEnd b.syms stop)) with
      | none => some b
      | some (end1, end2) =>
        if start2 < end1 then
          some ((b.deleteText start1 start2).deleteText (markAfterDelete start1 start2 end1)
            (markAfterDelete start1 start2 end2))
        else none

/-! ## The commands -/

/-- `_moo_edit_has_comments` -/
def hasComments (lang : MooLang) : Bool :=
  lang.lineComment.isSome || (lang.blockCommentStart.isSome && lang.blockCommentEnd.isSome)

/-- `gtk_text_buffer_get_iter_at_line_offset` -/
def getIterAtLineOffset (S : List Sym) (n offset : ℕ) : ℕ :=
  getIterAtLine S n + walkLine offset (S.drop (getIterAtLine S n))

/-- The line form where the language has one, else the block form. -/
def comment (lang : MooLang) (start stop : ℕ) (b : SelectedText) : SelectedText :=
  match lang.lineComment with
  | some commentString => lineComment commentString start stop b
  | none =>
    blockComment (lang.blockCommentStart.getD []) (lang.blockCommentEnd.getD []) start stop b

/-- `moo_edit_comment_selection` -/
def commentSelection (lang : MooLang) (b : SelectedText) : SelectedText :=
  if !hasComments lang then b
  else
    let selStartLine := line b.syms b.start
    let selStartOffset := b.start - lineStart b.syms b.start
    let b' := { comment lang b.start b.stop b with userActions := b.userActions + 1 }
    if b.start ≠ b.stop then
      let iter := getIterAtLineOffset b'.syms selStartLine selStartOffset
      if b.insert = b.start then { b' with insert := iter } else { b' with selectionBound := iter }
    else b'

/-- `moo_edit_uncomment_selection`, unless an assertion fails. -/
def uncommentSelection (lang : MooLang) (b : SelectedText) : Option SelectedText :=
  if !hasComments lang then some b
  else
    let b' := { b with userActions := b.userActions + 1 }
    match lang.lineComment with
    | some commentString => some (lineUncomment commentString b.start b.stop b')
    | none =>
      blockUncomment (lang.blockCommentStart.getD []) (lang.blockCommentEnd.getD []) b.start
        b.stop b'

/-! ## Lines with and without a comment string -/

end SelectedText

/-- A line that is commented out; nothing is put behind the string on an empty line. -/
def commented (commentString l : List Char) : List Char :=
  if l = [] then commentString else commentString ++ ' ' :: l

/-- A line without its comment string and one space behind it. -/
def uncommented (commentString l : List Char) : List Char :=
  if commentString <+: l then
    let rest := l.drop commentString.length
    if rest.head? = some ' ' then rest.tail else rest
  else l

/-- The lines from `first` to `last` are changed. -/
def mapLines (f : List Char → List Char) (first last : ℕ) (L : List (List Char)) :
    List (List Char) :=
  L.mapIdx fun i l => if first ≤ i ∧ i ≤ last then f l else l

theorem uncommented_commented (commentString l : List Char) :
    uncommented commentString (commented commentString l) = l := by
  unfold commented
  split
  · next h => simp [uncommented, h]
  · simp [uncommented]

theorem mapLines_mapLines {f g : List Char → List Char} (h : ∀ l, g (f l) = l) (first last : ℕ)
    (L : List (List Char)) : mapLines g first last (mapLines f first last L) = L := by
  refine List.ext_getElem? fun i => ?_
  simp only [mapLines, List.getElem?_mapIdx, Option.map_map]
  cases L[i]? with
  | none => rfl
  | some l =>
    simp only [Option.map_some, Function.comp_apply]
    split <;> simp [h]

/-- Lines that are changed one after the other. -/
theorem foldl_modify (f : List Char → List Char) {first last : ℕ} (L : List (List Char)) :
    (List.range' first (last + 1 - first)).foldl (fun L i => L.modify i f) L =
      mapLines f first last L := by
  suffices h : ∀ (l : List ℕ) (L : List (List Char)) (i : ℕ), l.Nodup →
      (l.foldl (fun L i => L.modify i f) L)[i]? =
        L[i]?.map fun x => if i ∈ l then f x else x by
    refine List.ext_getElem? fun i => ?_
    have hmem : i ∈ List.range' first (last + 1 - first) ↔ first ≤ i ∧ i ≤ last := by
      rw [List.mem_range'_1]
      omega
    simp only [h _ _ _ List.nodup_range', mapLines, List.getElem?_mapIdx, hmem]
  intro l
  induction l with
  | nil => simp
  | cons j l ih =>
    intro L i hl
    obtain ⟨hj, hl⟩ := List.nodup_cons.1 hl
    rw [List.foldl_cons, ih _ _ hl, List.getElem?_modify]
    cases L[i]? with
    | none => rfl
    | some x =>
      by_cases hij : j = i
      · subst hij
        simp [hj]
      · simp [hij, Ne.symm hij]

namespace SelectedText

variable {b : SelectedText} {S P N Q : List Sym} {commentString t : List Char}

/-! ## A round of each loop -/

theorem insertText_lineAt (h : LineAt b.syms P N Q) (ht : ∀ c ∈ t, isDelim c = false) :
    LineAt (b.insertText P.length t).syms P (t.map ofChar ++ N) Q := by
  refine ⟨?_, h.whole, ?_, h.eolFirst⟩
  · have htake : b.syms.take P.length = P := by rw [h.eq, List.take_left]
    have hdrop : b.syms.drop P.length = N ++ Q := by rw [h.eq, List.drop_left]
    simp [insertText, Paragraphs.insert, paragraphs_of_line ht, htake, hdrop]
  · intro s hs
    rcases List.mem_append.1 hs with hs | hs
    · obtain ⟨c, hc, rfl⟩ := List.mem_map.1 hs
      exact isEol_ofChar (ht c hc)
    · exact h.line s hs

/-- What is put in front of a line. -/
def commentText (commentString : List Char) (N : List Sym) : List Char :=
  if N = [] then commentString else commentString ++ [' ']

theorem commentLine_eq (h : LineAt b.syms P N Q) :
    commentLine commentString b (P.countP Sym.isEol) =
      b.insertText P.length (commentText commentString N) := by
  have hends : b.syms[P.length]?.all Sym.isEol = true ↔ N = [] := by
    rw [h.eq, List.getElem?_append_right le_rfl, Nat.sub_self]
    cases N with
    | nil => rcases h.eolFirst with rfl | ⟨d, Q, rfl⟩ <;> simp [Sym.isEol]
    | cons s N => simp [h.line s (by simp)]
  simp only [commentLine, getIterAtLine_eq h, hends, commentText]
  split <;> rfl

theorem isDelim_commentText (hs : ∀ c ∈ commentString, isDelim c = false) (N : List Sym) :
    ∀ c ∈ commentText commentString N, isDelim c = false := by
  unfold commentText
  split
  · exact hs
  · exact List.forall_mem_append.2 ⟨hs, by simp [isDelim, paragraphSeparator]⟩

theorem text_commentText (N : List Sym) :
    commentText commentString N ++ text N = commented commentString (text N) := by
  have hnil : text N = [] ↔ N = [] := text_eq_nil
  unfold commentText commented
  by_cases h : N = [] <;> simp [h, hnil]

/-- A round comments out one line. -/
theorem commentLine_lineAt (hs : ∀ c ∈ commentString, isDelim c = false)
    (h : LineAt b.syms P N Q) :
    LineAt (commentLine commentString b (P.countP Sym.isEol)).syms P
      ((commentText commentString N).map ofChar ++ N) Q := by
  rw [commentLine_eq h]
  exact insertText_lineAt h (isDelim_commentText hs N)

theorem contents_commentLine (hs : ∀ c ∈ commentString, isDelim c = false) {i : ℕ}
    (hi : i ≤ b.syms.countP Sym.isEol) :
    contents (commentLine commentString b i).syms =
        (contents b.syms).modify i (commented commentString) ∧
      ends (commentLine commentString b i).syms = ends b.syms := by
  obtain ⟨P, N, Q, h, rfl⟩ := exists_lineAt b.syms hi
  refine h.contents_modify (commentLine_lineAt hs h) ?_
  rw [text_append, text_map_ofChar, text_commentText N]

theorem text_take_eq_iff (h : LineAt S P N Q) (hs : ∀ c ∈ commentString, isDelim c = false) :
    text ((S.drop P.length).take commentString.length) = commentString ↔
      commentString <+: text N := by
  have hdrop : S.drop P.length = N ++ Q := by rw [h.eq, List.drop_left]
  rw [hdrop]
  constructor
  · intro htext
    rcases Nat.lt_or_ge N.length commentString.length with hlt | hle
    · rcases h.eolFirst with rfl | ⟨d, Q, rfl⟩
      · rw [List.append_nil, List.take_of_length_le hlt.le] at htext
        exact htext ▸ List.prefix_rfl
      · -- the end of the line would be in the comment string
        have hmem : Sym.eol d ∈ (N ++ .eol d :: Q).take commentString.length := by
          obtain ⟨n, hn⟩ := Nat.exists_eq_add_of_lt hlt
          rw [hn, Nat.add_assoc, List.take_length_add_append]
          simp
        obtain ⟨c, hc⟩ := List.exists_mem_of_ne_nil (Sym.chars (.eol d))
          (List.length_pos_iff.1 (Sym.length_chars_pos _))
        have hdelim := hs c (htext ▸ List.mem_flatMap.2 ⟨_, hmem, hc⟩)
        cases d <;>
          simp only [Sym.chars, Delim.chars, List.mem_cons, List.not_mem_nil, or_false] at hc
        · simp [hc, isDelim] at hdelim
        · simp [hc, isDelim] at hdelim
        · rcases hc with rfl | rfl <;> simp [isDelim] at hdelim
        · simp [hc, isDelim] at hdelim
    · rw [List.take_append_of_le_length hle] at htext
      have happend := text_append (N.take commentString.length) (N.drop commentString.length)
      rw [List.take_append_drop, htext] at happend
      exact ⟨_, happend.symm⟩
  · rintro ⟨rest, hrest⟩
    rw [← map_ofChar_text h.line, ← hrest, List.map_append, List.append_assoc,
      List.take_left' (by simp), text_map_ofChar]

theorem ofChar_space : ofChar ' ' = .char ' ' (by decide) := by
  simp [ofChar, isDelim, paragraphSeparator]

/-- A round takes the comment string of one line off. -/
theorem uncommentLine_lineAt (hs : ∀ c ∈ commentString, isDelim c = false)
    (h : LineAt b.syms P N Q) : ∃ N', text N' = uncommented commentString (text N) ∧
      LineAt (uncommentLine commentString b (P.countP Sym.isEol)).syms P N' Q := by
  unfold uncommentLine uncommented
  simp only [getIterAtLine_eq h, text_take_eq_iff h hs]
  split
  · next hpre =>
    obtain ⟨rest, hrest⟩ := hpre
    have hN : N = commentString.map ofChar ++ rest.map ofChar := by
      rw [← List.map_append, hrest, map_ofChar_text h.line]
    have hline : ∀ s ∈ rest.map ofChar, s.isEol = false := fun s hs =>
      h.line s (hN ▸ List.mem_append_right _ hs)
    have hdrop : b.syms.drop (P.length + commentString.length) = rest.map ofChar ++ Q := by
      rw [h.drop_eq (by simp [hN]), hN, List.drop_left' (by simp)]
    have htake : b.syms.take P.length = P := by rw [h.eq, List.take_left]
    have hspace : b.syms[P.length + commentString.length]? = some (ofChar ' ') ↔
        rest.head? = some ' ' := by
      rw [← List.head?_drop, hdrop]
      cases rest with
      | nil =>
        rcases h.eolFirst with rfl | ⟨d, Q, rfl⟩
        · simp
        · simp [ofChar_space]
      | cons c rest =>
        have hc := hline (ofChar c) (by simp)
        simp only [List.map_cons, List.cons_append, List.head?_cons, Option.some.injEq]
        refine ⟨fun heq => ?_, fun heq => by rw [heq]⟩
        have hchars := congrArg Sym.chars heq
        rwa [chars_ofChar, chars_ofChar, List.singleton_inj] at hchars
    have hrestdrop : (text N).drop commentString.length = rest := by
      rw [← hrest, List.drop_left]
    simp only [hrestdrop, hspace]
    split
    · next hhead =>
      obtain ⟨rest', rfl⟩ : ∃ rest', rest = ' ' :: rest' := by
        cases rest with
        | nil => simp at hhead
        | cons c rest => exact ⟨rest, by simpa using hhead⟩
      refine ⟨rest'.map ofChar, text_map_ofChar _, ?_, h.whole, fun s hs => hline s (by simp [hs]),
        h.eolFirst⟩
      have hdrop' : b.syms.drop (P.length + commentString.length + 1) = rest'.map ofChar ++ Q := by
        rw [← List.drop_drop, hdrop]
        rfl
      simp only [deleteText, delete]
      rw [Nat.min_eq_left (by omega), Nat.max_eq_right (by omega), htake, hdrop']
    · refine ⟨rest.map ofChar, text_map_ofChar _, ?_, h.whole, hline, h.eolFirst⟩
      simp only [deleteText, delete]
      rw [Nat.min_eq_left (by omega), Nat.max_eq_right (by omega), htake, hdrop]
  · exact ⟨N, rfl, h⟩

theorem contents_uncommentLine (hs : ∀ c ∈ commentString, isDelim c = false) {i : ℕ}
    (hi : i ≤ b.syms.countP Sym.isEol) :
    contents (uncommentLine commentString b i).syms =
        (contents b.syms).modify i (uncommented commentString) ∧
      ends (uncommentLine commentString b i).syms = ends b.syms := by
  obtain ⟨P, N, Q, h, rfl⟩ := exists_lineAt b.syms hi
  obtain ⟨N', hN', h'⟩ := uncommentLine_lineAt hs h
  exact h.contents_modify h' hN'.symm

/-! ## The loops -/

/-- A loop whose rounds change one line each. -/
theorem foldl_lines {step : SelectedText → ℕ → SelectedText} {f : List Char → List Char}
    (hstep : ∀ (b : SelectedText) (i : ℕ), i ≤ b.syms.countP Sym.isEol →
      contents (step b i).syms = (contents b.syms).modify i f ∧ ends (step b i).syms = ends b.syms)
    (b : SelectedText) {first last : ℕ} (hlast : last ≤ b.syms.countP Sym.isEol) :
    b.Becomes ((List.range' first (last + 1 - first)).foldl step b)
      (mapLines f first last (contents b.syms)) := by
  rw [← foldl_modify]
  have hle : ∀ i ∈ List.range' first (last + 1 - first), i ≤ b.syms.countP Sym.isEol := by
    intro i hi
    rw [List.mem_range'_1] at hi
    omega
  generalize List.range' first (last + 1 - first) = l at hle
  clear hlast
  induction l generalizing b with
  | nil => exact ⟨rfl, rfl⟩
  | cons i l ih =>
    obtain ⟨hi, hl⟩ := List.forall_mem_cons.1 hle
    obtain ⟨hcontents, hends⟩ := hstep b i hi
    have hcount : (step b i).syms.countP Sym.isEol = b.syms.countP Sym.isEol := by
      rw [← length_ends, hends, length_ends]
    obtain ⟨hcontents', hends'⟩ := ih (step b i) (hcount ▸ hl)
    rw [List.foldl_cons, List.foldl_cons, ← hcontents]
    exact ⟨hcontents', hends'.trans hends⟩

theorem countP_commentLine (hs : ∀ c ∈ commentString, isDelim c = false) {i : ℕ}
    (hi : i ≤ b.syms.countP Sym.isEol) :
    (commentLine commentString b i).syms.countP Sym.isEol = b.syms.countP Sym.isEol := by
  rw [← length_ends, (contents_commentLine hs hi).2, length_ends]

/-! ## Marks in the loop -/

theorem startsLine_succ (S : List Sym) (i : ℕ) :
    startsLine S (i + 1) ↔ S[i]?.any Sym.isEol = true := by
  have hle (i : ℕ) : lineStart S i ≤ i := by
    induction i with
    | zero => exact le_rfl
    | succ i ih =>
      rw [lineStart]
      split
      · exact le_rfl
      · omega
  rw [startsLine, lineStart]
  have := hle i
  split
  · next h => simp [h]
  · next h => exact iff_of_false (by omega) h

section Insert

variable {pos m : ℕ}

theorem insert_eq (ht : ∀ c ∈ t, isDelim c = false) (S : List Sym) (pos : ℕ) :
    Paragraphs.insert S pos t = S.take pos ++ (t.map ofChar ++ S.drop pos) := by
  rw [Paragraphs.insert, paragraphs_of_line ht]

theorem isEol_of_mem_map (ht : ∀ c ∈ t, isDelim c = false) :
    ∀ s ∈ t.map ofChar, s.isEol = false := by
  intro s hs
  obtain ⟨c, hc, rfl⟩ := List.mem_map.1 hs
  exact isEol_ofChar (ht c hc)

/-- A mark stays on its line. -/
theorem line_insert (ht : ∀ c ∈ t, isDelim c = false) (hpos : pos ≤ S.length) :
    line (Paragraphs.insert S pos t) (markAfterInsert pos (paragraphs t).length m) = line S m := by
  have hlen : (S.take pos).length = pos := List.length_take_of_le hpos
  unfold line markAfterInsert
  rw [insert_eq ht, paragraphs_of_line ht, List.length_map]
  split
  · next hle =>
    obtain ⟨n, rfl⟩ := Nat.exists_eq_add_of_le hle
    have htake : (S.take pos ++ (t.map ofChar ++ S.drop pos)).take (pos + n + t.length) =
        S.take pos ++ (t.map ofChar ++ (S.drop pos).take n) := by
      have happend : (S.take pos ++ t.map ofChar ++ S.drop pos).take
          ((S.take pos ++ t.map ofChar).length + n) = S.take pos ++ t.map ofChar ++
            (S.drop pos).take n := List.take_length_add_append n
      rw [List.length_append, hlen, List.length_map] at happend
      rw [← List.append_assoc, ← List.append_assoc, ← happend]
      congr 1
      omega
    rw [htake, List.take_add, List.countP_append, List.countP_append, List.countP_append,
      countP_line (isEol_of_mem_map ht), Nat.zero_add]
  · next hlt =>
    rw [List.take_append_of_le_length (by omega), List.take_take, Nat.min_eq_left (by omega)]

/-- A mark that is not where the text is inserted starts a line as before. -/
theorem startsLine_insert (ht : ∀ c ∈ t, isDelim c = false) (hpos : pos ≤ S.length)
    (hne : pos ≠ m) :
    startsLine (Paragraphs.insert S pos t) (markAfterInsert pos (paragraphs t).length m) ↔
      startsLine S m := by
  have hlen : (S.take pos).length = pos := List.length_take_of_le hpos
  unfold markAfterInsert
  rw [insert_eq ht, paragraphs_of_line ht, List.length_map]
  split
  · next hle =>
    obtain ⟨n, rfl⟩ := Nat.exists_eq_add_of_lt (Nat.lt_of_le_of_ne hle hne)
    rw [show pos + n + 1 + t.length = pos + t.length + n + 1 by omega, startsLine_succ,
      startsLine_succ, ← List.append_assoc, List.getElem?_append_right (by simp; omega),
      List.getElem?_drop]
    simp only [List.length_append, hlen, List.length_map, Nat.add_sub_cancel_left]
  · next hlt =>
    cases m with
    | zero => exact ⟨fun _ => rfl, fun _ => rfl⟩
    | succ m =>
      rw [startsLine_succ, startsLine_succ, List.getElem?_append_left (by omega),
        List.getElem?_take_of_lt (by omega)]

end Insert

/-- A mark that insertions move. -/
def IsMark (mark : SelectedText → ℕ) : Prop := ∀ (b : SelectedText) (pos : ℕ) (t : List Char),
  mark (b.insertText pos t) = markAfterInsert pos (paragraphs t).length (mark b)

theorem isMark_insert : IsMark SelectedText.insert := fun _ _ _ => rfl

theorem isMark_selectionBound : IsMark SelectedText.selectionBound := fun _ _ _ => rfl

/-- Where the loop leaves a mark. -/
structure LeavesMark (mark : SelectedText → ℕ) (l : List ℕ) (b b' : SelectedText) : Prop where
  le : mark b ≤ mark b'
  same_line : line b'.syms (mark b') = line b.syms (mark b)
  starts : (startsLine b.syms (mark b) → line b.syms (mark b) ∉ l) →
    (startsLine b'.syms (mark b') ↔ startsLine b.syms (mark b))

theorem commentLine_mark {mark : SelectedText → ℕ} (hmark : IsMark mark)
    (hs : ∀ c ∈ commentString, isDelim c = false) {i : ℕ} (hi : i ≤ b.syms.countP Sym.isEol) :
    LeavesMark mark [i] b (commentLine commentString b i) := by
  obtain ⟨P, N, Q, h, rfl⟩ := exists_lineAt b.syms hi
  have hlen : P.length ≤ b.syms.length := by simp [h.eq]
  have ht := isDelim_commentText hs N
  rw [commentLine_eq h]
  constructor
  · rw [hmark, markAfterInsert]
    split <;> omega
  · rw [hmark]
    exact line_insert ht hlen
  · intro hnot
    rw [hmark]
    refine startsLine_insert ht hlen fun heq => ?_
    have hline : line b.syms (P.length + 0) = P.countP Sym.isEol :=
      line_eq h (Nat.zero_le _)
    have hstarts : startsLine b.syms (P.length + 0) :=
      (startsLine_iff h (Nat.zero_le _)).2 rfl
    rw [Nat.add_zero, heq] at hline hstarts
    simpa [hline] using hnot hstarts

theorem foldl_commentLine_mark {mark : SelectedText → ℕ} (hmark : IsMark mark)
    (hs : ∀ c ∈ commentString, isDelim c = false) (b : SelectedText) {l : List ℕ}
    (hl : ∀ i ∈ l, i ≤ b.syms.countP Sym.isEol) :
    LeavesMark mark l b (l.foldl (commentLine commentString) b) := by
  induction l generalizing b with
  | nil => exact ⟨le_rfl, rfl, fun _ => Iff.rfl⟩
  | cons i l ih =>
    obtain ⟨hi, hl⟩ := List.forall_mem_cons.1 hl
    have hcount := countP_commentLine hs hi
    have hstep := commentLine_mark hmark hs hi
    have hrest := ih (commentLine commentString b i) (hcount ▸ hl)
    refine ⟨hstep.le.trans hrest.le, hrest.same_line.trans hstep.same_line, fun hnot => ?_⟩
    have hfirst := hstep.starts fun hstarts hmem => hnot hstarts (by simpa using Or.inl hmem)
    refine (hrest.starts fun hstarts hmem => ?_).trans hfirst
    rw [hstep.same_line] at hmem
    exact hnot (hfirst.1 hstarts) (List.mem_cons_of_mem _ hmem)

/-- What is in front of the first line stays. -/
theorem foldl_commentLine_front (hs : ∀ c ∈ commentString, isDelim c = false) (b : SelectedText)
    {l : List ℕ} (hl : ∀ i ∈ l, i ≤ b.syms.countP Sym.isEol) (hP : Whole P) (hb : P <+: b.syms)
    (hfirst : ∀ i ∈ l, P.countP Sym.isEol ≤ i) :
    P <+: (l.foldl (commentLine commentString) b).syms := by
  induction l generalizing b with
  | nil => exact hb
  | cons i l ih =>
    obtain ⟨hi, hl⟩ := List.forall_mem_cons.1 hl
    obtain ⟨hle, hfirst⟩ := List.forall_mem_cons.1 hfirst
    have hcount := countP_commentLine hs hi
    refine ih (commentLine commentString b i) (hcount ▸ hl) ?_ hfirst
    obtain ⟨P', N, Q, h, rfl⟩ := exists_lineAt b.syms hi
    have hpre : P <+: P' := by
      have hP' : P' <+: b.syms := ⟨N ++ Q, h.eq.symm⟩
      rcases List.prefix_or_prefix_of_prefix hb hP' with hle | ⟨X, rfl⟩
      · exact hle
      · rw [List.countP_append] at hle
        have hX : ∀ s ∈ X, s.isEol = false := by
          simpa using List.countP_eq_zero.1 (by omega : X.countP Sym.isEol = 0)
        rcases List.eq_nil_or_concat X with rfl | ⟨X, s, rfl⟩
        · simp
        · rcases hP with hnil | ⟨S, d, heq⟩
          · simp at hnil
          · have hlast := congrArg List.getLast? heq
            rw [List.concat_eq_append, ← List.append_assoc, List.getLast?_concat,
              List.getLast?_concat, Option.some.injEq] at hlast
            have heol := hX s (by simp)
            rw [hlast] at heol
            cases heol
    exact hpre.trans ⟨_, (commentLine_lineAt hs h).eq.symm⟩

/-! ## Comments on lines -/

theorem lastCommentLine_le (S : List Sym) (start stop : ℕ) :
    lastCommentLine S start stop ≤ S.countP Sym.isEol := by
  have := line_le S stop
  unfold lastCommentLine
  split <;> omega

theorem lineComment_becomes (hne : commentString ≠ [])
    (hs : ∀ c ∈ commentString, isDelim c = false) (b : SelectedText) (start stop : ℕ) :
    b.Becomes (lineComment commentString start stop b)
      (mapLines (commented commentString) (line b.syms start) (lastCommentLine b.syms start stop)
        (contents b.syms)) := by
  rw [lineComment, if_neg hne]
  exact foldl_lines (fun b i hi => contents_commentLine hs hi) b (lastCommentLine_le ..)

theorem lineUncomment_becomes (hne : commentString ≠ [])
    (hs : ∀ c ∈ commentString, isDelim c = false) (b : SelectedText) (start stop : ℕ) :
    b.Becomes (lineUncomment commentString start stop b)
      (mapLines (uncommented commentString) (line b.syms start)
        (lastCommentLine b.syms start stop) (contents b.syms)) := by
  rw [lineUncomment, if_neg hne]
  exact foldl_lines (fun b i hi => contents_uncommentLine hs hi) b (lastCommentLine_le ..)

/-- A line that the selection only reaches is behind its last line. -/
theorem lastCommentLine_lt {start stop : ℕ} (hlt : start < stop) (h : startsLine S stop) :
    lastCommentLine S start stop < line S stop := by
  rw [lastCommentLine, if_pos ⟨hlt.ne, h⟩]
  refine Nat.sub_lt ?_ Nat.one_pos
  obtain ⟨n, rfl⟩ := Nat.exists_eq_succ_of_ne_zero (by omega : stop ≠ 0)
  obtain ⟨s, hs, heol⟩ := Option.any_eq_true _ _ |>.1 ((startsLine_succ S n).1 h)
  rw [line, List.countP_pos_iff]
  refine ⟨s, List.mem_of_getElem? (i := n) ?_, heol⟩
  rw [List.getElem?_take_of_lt (by omega), hs]

/-- Where the loop of `line_comment` leaves a mark. -/
theorem lineComment_mark {mark : SelectedText → ℕ} (hmark : IsMark mark)
    (hs : ∀ c ∈ commentString, isDelim c = false) (b : SelectedText) (start stop : ℕ) :
    LeavesMark mark (List.range' (line b.syms start)
        (lastCommentLine b.syms start stop + 1 - line b.syms start)) b
      (lineComment commentString start stop b) := by
  unfold lineComment
  dsimp only
  split
  · exact ⟨le_rfl, rfl, fun _ => Iff.rfl⟩
  · refine foldl_commentLine_mark hmark hs b fun i hi => ?_
    have := lastCommentLine_le b.syms start stop
    rw [List.mem_range'_1] at hi
    omega

theorem walkLine_eq (hN : ∀ s ∈ N, s.isEol = false) {k : ℕ} (hk : k ≤ N.length) :
    walkLine k (N ++ Q) = k := by
  induction N generalizing k with
  | nil =>
    obtain rfl : k = 0 := Nat.le_zero.1 hk
    cases Q <;> rfl
  | cons s N ih =>
    obtain ⟨hs, hrest⟩ := List.forall_mem_cons.1 hN
    cases k with
    | zero => rfl
    | succ k =>
      cases s with
      | eol d => simp [Sym.isEol] at hs
      | char c hc => rw [List.cons_append, walkLine, ih hrest (by simpa using hk)]

theorem length_le_commented (commentString l : List Char) :
    l.length ≤ (commented commentString l).length := by
  unfold commented
  split
  · next h => simp [h]
  · simp
    omega

/-- The start of the selection stays on its line at its offset. -/
theorem lineComment_start (hs : ∀ c ∈ commentString, isDelim c = false)
    (hne : commentString ≠ []) {start : ℕ} (hstart : start ≤ b.syms.length) (stop : ℕ) :
    let b' := lineComment commentString start stop b
    getIterAtLineOffset b'.syms (line b.syms start) (start - lineStart b.syms start) = start ∧
      line b'.syms start = line b.syms start := by
  intro b'
  obtain ⟨P, N, Q, h, hle, hge⟩ := exists_lineAt_of_le b.syms hstart
  obtain ⟨k, rfl⟩ := Nat.exists_eq_add_of_le hle
  have hk : k ≤ N.length := by omega
  obtain ⟨hcontents, -⟩ := lineComment_becomes hne hs b (P.length + k) stop
  have hfront : P <+: b'.syms := by
    change P <+: (lineComment commentString (P.length + k) stop b).syms
    rw [lineComment, if_neg hne]
    have hlast := lastCommentLine_le b.syms (P.length + k) stop
    refine foldl_commentLine_front hs b (fun i hi => ?_) h.whole ⟨N ++ Q, h.eq.symm⟩ fun i hi => ?_
    · rw [List.mem_range'_1] at hi
      omega
    · rw [List.mem_range'_1, line_eq h hk] at hi
      exact hi.1
  obtain ⟨R, hR⟩ := hfront
  obtain ⟨N', Q', h'⟩ := exists_lineAt_of_whole h.whole R
  rw [hR] at h'
  have hlen : N.length ≤ N'.length := by
    have hget := h'.getElem?_contents
    rw [hcontents, mapLines, List.getElem?_mapIdx, h.getElem?_contents, Option.map_some,
      Option.some.injEq] at hget
    rw [← length_text_of_line h.line, ← length_text_of_line h'.line, ← hget]
    split
    · exact length_le_commented ..
    · exact le_rfl
  refine ⟨?_, ?_⟩
  · rw [line_eq h hk, lineStart_eq h hk, getIterAtLineOffset, getIterAtLine_eq h',
      Nat.add_sub_cancel_left]
    have hdrop : b'.syms.drop P.length = N' ++ Q' := by rw [h'.eq, List.drop_left]
    rw [hdrop, walkLine_eq h'.line (by omega)]
  · rw [line_eq h hk, line_eq h' (by omega)]

/-- A cursor stays one. -/
theorem lineComment_cursor (b : SelectedText) (start stop : ℕ) (h : b.insert = b.selectionBound) :
    (lineComment commentString start stop b).insert =
      (lineComment commentString start stop b).selectionBound := by
  unfold lineComment
  dsimp only
  split
  · exact h
  · generalize List.range' _ _ = l
    induction l generalizing b with
    | nil => exact h
    | cons i l ih =>
      refine ih _ ?_
      unfold commentLine
      dsimp only
      split <;> simp only [insertText, h]

/-- The end of the selection is behind the last line that it was behind. -/
theorem lineComment_stop {mark : SelectedText → ℕ} (hmark : IsMark mark)
    (hs : ∀ c ∈ commentString, isDelim c = false) {start : ℕ} (hlt : start < mark b) :
    let b' := lineComment commentString start (mark b) b
    start < mark b' ∧
      lastCommentLine b'.syms start (mark b') = lastCommentLine b.syms start (mark b) := by
  intro b'
  have hleaves := lineComment_mark hmark hs b start (mark b)
  have hlt' : start < mark b' := Nat.lt_of_lt_of_le hlt hleaves.le
  have hstarts := hleaves.starts fun h hmem => by
    have := lastCommentLine_lt hlt h
    rw [List.mem_range'_1] at hmem
    omega
  have hsame : line b'.syms (mark b') = line b.syms (mark b) := hleaves.same_line
  refine ⟨hlt', ?_⟩
  unfold lastCommentLine
  simp only [hlt.ne, hlt'.ne, ne_eq, not_false_eq_true, true_and, hsame]
  exact if_congr hstarts rfl rfl

/-- The command for a language with a line comment, and the lines of the selection afterwards. -/
theorem commentSelection_line {lang : MooLang} (hlang : lang.lineComment = some commentString)
    (hne : commentString ≠ []) (hs : ∀ c ∈ commentString, isDelim c = false)
    (hinsert : b.insert ≤ b.syms.length) :
    let b' := commentSelection lang b
    b.Becomes b' (mapLines (commented commentString) (line b.syms b.start)
        (lastCommentLine b.syms b.start b.stop) (contents b.syms)) ∧
      line b'.syms b'.start = line b.syms b.start ∧
      lastCommentLine b'.syms b'.start b'.stop = lastCommentLine b.syms b.start b.stop := by
  intro b'
  have hbecomes := lineComment_becomes hne hs b b.start b.stop
  have hle : b.start ≤ b.syms.length := by
    simp only [start]
    omega
  have hstart := lineComment_start hs hne hle b.stop
  have hb' : b' = commentSelection lang b := rfl
  simp only [commentSelection, hasComments, hlang, Option.isSome_some, Bool.true_or, Bool.not_true,
    Bool.false_eq_true, if_false, comment] at hb'
  obtain ⟨hiter, hline⟩ := hstart
  generalize hc : lineComment commentString b.start b.stop b = c at hb' hbecomes hiter hline
  rw [hiter] at hb'
  by_cases hsel : b.start = b.stop
  · have heq : b.insert = b.selectionBound := by
      simp only [start, stop] at hsel
      omega
    have hleaves := (lineComment_mark isMark_insert hs b b.start b.stop).same_line
    have hcursor : c.insert = c.selectionBound := hc ▸ lineComment_cursor b b.start b.stop heq
    rw [hc] at hleaves
    rw [if_neg (by simpa using hsel)] at hb'
    have hbounds : b'.start = c.insert ∧ b'.stop = c.insert := by
      simp [hb', start, stop, ← hcursor]
    have hold : b.start = b.insert ∧ b.stop = b.insert := by
      simp [start, stop, ← heq]
    have hsyms : b'.syms = c.syms := by rw [hb']
    simp only [Becomes, hsyms, hbounds, hold, lastCommentLine, ne_eq, not_true_eq_false, false_and,
      if_false, hleaves, and_true]
    simpa only [Becomes, hold, lastCommentLine, ne_eq, not_true_eq_false, false_and, if_false]
      using hbecomes
  · rw [if_pos hsel] at hb'
    rcases Nat.lt_or_ge b.insert b.selectionBound with hlt | hge
    · have hold : b.start = b.insert ∧ b.stop = b.selectionBound := by
        simp only [start, stop]
        omega
      have hlt₀ : b.start < b.selectionBound := by omega
      obtain ⟨hlt', hlast⟩ := lineComment_stop isMark_selectionBound hs hlt₀
      rw [← hold.2, hc] at hlt' hlast
      rw [if_pos hold.1.symm] at hb'
      have hbounds : b'.start = b.start ∧ b'.stop = c.selectionBound := by
        simp only [hb']
        constructor
        · exact Nat.min_eq_left hlt'.le
        · exact Nat.max_eq_right hlt'.le
      have hsyms : b'.syms = c.syms := by rw [hb']
      rw [hbounds.1, hbounds.2, hsyms]
      exact ⟨by simpa only [Becomes, hsyms] using hbecomes, hline, hlast⟩
    · have hold : b.start = b.selectionBound ∧ b.stop = b.insert := by
        simp only [start, stop]
        omega
      have hlt₀ : b.start < b.insert := by omega
      obtain ⟨hlt', hlast⟩ := lineComment_stop isMark_insert hs hlt₀
      rw [← hold.2, hc] at hlt' hlast
      rw [if_neg (by omega)] at hb'
      have hbounds : b'.start = b.start ∧ b'.stop = c.insert := by
        simp only [hb']
        constructor
        · exact Nat.min_eq_right hlt'.le
        · exact Nat.max_eq_left hlt'.le
      have hsyms : b'.syms = c.syms := by rw [hb']
      rw [hbounds.1, hbounds.2, hsyms]
      exact ⟨by simpa only [Becomes, hsyms] using hbecomes, hline, hlast⟩

theorem uncommentSelection_line {lang : MooLang} (hlang : lang.lineComment = some commentString)
    (hne : commentString ≠ []) (hs : ∀ c ∈ commentString, isDelim c = false) (b : SelectedText) :
    ∃ b', uncommentSelection lang b = some b' ∧
      b.Becomes b' (mapLines (uncommented commentString) (line b.syms b.start)
        (lastCommentLine b.syms b.start b.stop) (contents b.syms)) := by
  simp only [uncommentSelection, hasComments, hlang, Option.isSome_some, Bool.true_or,
    Bool.not_true, Bool.false_eq_true, if_false]
  exact ⟨_, rfl, lineUncomment_becomes hne hs { b with userActions := b.userActions + 1 } _ _⟩

/-- What is commented out line by line comes back. -/
theorem uncommentSelection_commentSelection_line {lang : MooLang}
    (hlang : lang.lineComment = some commentString) (hne : commentString ≠ [])
    (hs : ∀ c ∈ commentString, isDelim c = false) (hinsert : b.insert ≤ b.syms.length) :
    ∃ b', uncommentSelection lang (commentSelection lang b) = some b' ∧
      text b'.syms = text b.syms := by
  obtain ⟨hcontents, hline, hlast⟩ := commentSelection_line hlang hne hs hinsert
  obtain ⟨b', hb', hcontents'⟩ := uncommentSelection_line hlang hne hs (commentSelection lang b)
  refine ⟨b', hb', text_congr ?_ (hcontents'.2.trans hcontents.2)⟩
  rw [hcontents'.1, hline, hlast, hcontents.1]
  exact mapLines_mapLines (uncommented_commented commentString) ..

end SelectedText

end Medit
