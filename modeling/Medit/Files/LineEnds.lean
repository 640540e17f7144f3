import Medit.Files.Document
import Medit.Files.LineReader
import Medit.TextBuffer.Stack

/-!
# The ends of lines of a file

Loading a text turns the ends of its lines into `\n` and remembers of what kind they were. Saving it
puts ends of that kind behind the lines of the buffer.

## Main definitions

* `MooEdit.doLoadText` — `do_load_text`.
* `MooEdit.getContents` — `get_contents`.
* `OneKind` — a text whose lines all end alike.

## Main results

* `load_save_iff` — the text comes back exactly when there is no U+2029 in it.
-/

namespace Medit

open Paragraphs CharLines

/-! ## Loading -/

/-- What `do_load_text` has collected. -/
structure LoadState where
  le : Option MooLineEndType
  mixedLe : Bool
  strbuf : List UInt8
deriving DecidableEq

/-- The kind of the end of a line; U+2029 has none. -/
def lineEndOfTerm (term : List UInt8) : Option MooLineEndType :=
  if term = [13] then some .mac
  else if term = [10] then some .unix
  else if term = [13, 10] then some .win32
  else none

namespace LoadState

/-- The end of a line is of the kind `leHere`. -/
def note (s : LoadState) (leHere : MooLineEndType) : LoadState :=
  if s.mixedLe ∨ s.le.any (· ≠ leHere) then { s with mixedLe := true } else { s with le := some leHere }

/-- One line of `do_load_text`. -/
def loadLine (s : LoadState) (line term : List UInt8) : LoadState :=
  match lineEndOfTerm term with
  | some leHere =>
    let s := s.note leHere
    { s with strbuf := s.strbuf ++ line ++ [10] }
  -- no end at all, or one that is a part of the text
  | none => { s with strbuf := s.strbuf ++ line ++ term }

end LoadState

theorem length_mooLineReaderGetLine (bs : List UInt8) (h : (mooLineReaderGetLine bs).2.1 ≠ []) :
    (mooLineReaderGetLine bs).2.2.length < bs.length := by
  induction bs with
  | nil => simp [mooLineReaderGetLine] at h
  | cons b bs ih =>
    unfold mooLineReaderGetLine at h ⊢
    split_ifs with h₁ h₂ h₃ h₄
    · exact Nat.lt_succ_of_le (by simp)
    · exact Nat.lt_succ_self _
    · exact Nat.lt_succ_self _
    · exact Nat.lt_succ_of_le (by simp)
    · rw [if_neg h₁, if_neg h₃, if_neg h₄] at h
      exact Nat.lt_succ_of_lt (ih h)

/-- The loop of `do_load_text` over a reader. -/
def loadLines (s : LoadState) (text : List UInt8) : LoadState :=
  let line := mooLineReaderGetLine text
  let s := s.loadLine line.1 line.2.1
  if _h : line.2.1 = [] then s
  else loadLines s line.2.2
termination_by text.length
decreasing_by exact length_mooLineReaderGetLine text ‹_›

namespace MooEdit

/-- `do_load_text` -/
def doLoadText (edit : MooEdit) (text : List UInt8) : MooEdit :=
  let s : LoadState := ⟨none, false, []⟩
  let s := (mooLineReaderInit text).elim s (loadLines s)
  let le := if s.mixedLe then some MooLineEndType.native else s.le
  { edit with
    -- the buffer is empty, and the cursor is at its start
    buffer := edit.buffer.insertText 0 s.strbuf
    lineEndType := le.or edit.lineEndType }

end MooEdit

/-! ## Saving -/

/-- The bytes that end a line. -/
def MooLineEndType.bytes : MooLineEndType → List UInt8
  | unix => [10]
  | win32 => [13, 10]
  | mac => [13]

theorem lt_of_forwardLine {t : List Char} {pos next : ℕ} (h : forwardLine t pos = some next) :
    pos < next ∧ next < t.length := by
  unfold forwardLine at h
  split_ifs at h with hlt
  obtain rfl := Option.some.inj h
  have hle : pos ≤ nextLine t pos := by rw [nextLine_eq]; omega
  exact ⟨lt_nextLine (by omega), hlt⟩

/-- The loop of `get_contents_with_fixed_line_end`, from the start of a line on. -/
def contentsFrom (t : List Char) (le : List UInt8) (lineStart : ℕ) : List UInt8 :=
  let lineEnd := if endsLine t lineStart then lineStart else forwardToLineEnd t lineStart
  let contents := Utf8.encode ((t.take lineEnd).drop lineStart) ++
    if lineEnd < t.length then le else []
  match _h : forwardLine t lineStart with
  | none => contents
  | some next => contents ++ contentsFrom t le next
termination_by t.length - lineStart
decreasing_by have := lt_of_forwardLine ‹_›; omega

namespace MooEdit

/-- `get_contents` -/
def getContents (edit : MooEdit) : List UInt8 :=
  contentsFrom edit.buffer.text edit.getLineEndType.bytes 0

end MooEdit

/-! ## What is saved -/

/-- What a character of a buffer becomes in the file. -/
def savedChar (le : List UInt8) (c : Char) : List UInt8 :=
  if isDelim c then le else String.utf8EncodeChar c

variable {t : List Char} {pos : ℕ}

/-- A line of the saver ends where its characters do. -/
theorem lineEnd_eq (h : '\r' ∉ t) :
    (if endsLine t pos then pos else forwardToLineEnd t pos) =
      pos + (untilDelim (t.drop pos)).length := by
  have hends := untilDelim_eq_nil (t := t.drop pos)
  rw [← endsLine_eq h] at hends
  split_ifs with hnil
  · rw [hends.2 hnil]
    rfl
  · rw [forwardToLineEnd, if_pos (mt hends.1 hnil)]

/-- The saver goes from line to line. -/
theorem contentsFrom_eq (h : '\r' ∉ t) (le : List UInt8) (hpos : pos ≤ t.length) :
    contentsFrom t le pos = (t.drop pos).flatMap (savedChar le) := by
  induction hn : t.length - pos using Nat.strong_induction_on generalizing pos with
  | _ n ih =>
    obtain ⟨happend, hhead⟩ := untilDelim_append (t.drop pos)
    have hline := @lineEnd_eq _ pos h
    have hnext := nextLine_eq t pos
    have hcs : (untilDelim (t.drop pos)).flatMap (savedChar le) =
        Utf8.encode (untilDelim (t.drop pos)) := by
      refine List.flatMap_congr fun c hc => ?_
      rw [savedChar, isDelim_of_mem_untilDelim hc]
      rfl
    have hdrop : t.drop (pos + (untilDelim (t.drop pos)).length) =
        (t.drop pos).drop (untilDelim (t.drop pos)).length := by
      rw [List.drop_drop]
    generalize untilDelim (t.drop pos) = line at *
    generalize (t.drop pos).drop line.length = rest at *
    have hlen : t.length = pos + line.length + rest.length := by
      have := congrArg List.length happend
      simp only [List.length_append, List.length_drop] at this
      omega
    have htake : (t.take (pos + line.length)).drop pos = line := by
      rw [← List.take_drop, happend, List.take_left']
      rfl
    unfold contentsFrom
    simp only [hline, htake]
    rw [happend, List.flatMap_append, hcs]
    cases rest with
    | nil =>
      -- the last line has no end
      have hlast : forwardLine t pos = none := by
        simp only [delimLen, List.length_nil] at hnext hlen
        rw [forwardLine, if_neg (by omega)]
      split
      · rw [if_neg (by rw [hlen]; simp), List.flatMap_nil]
      · next hsome => simp [hlast] at hsome
    | cons c cs =>
      have hc : isDelim c := by simpa using hhead
      have hcr : c ≠ '\r' := by
        rintro rfl
        exact h (List.mem_of_mem_drop (by rw [happend]; simp))
      rw [delimLen_cons hc hcr] at hnext
      rw [List.length_cons] at hlen
      have hsaved : savedChar le c = le := if_pos hc
      rw [if_pos (by omega), List.flatMap_cons, hsaved]
      split
      · next hnone =>
        -- the end of this line is the end of the text
        have hcs : cs = [] := by
          rw [forwardLine, ite_eq_right_iff] at hnone
          have := mt (@hnone) (by simp)
          exact List.eq_nil_of_length_eq_zero (by omega)
        rw [hcs, List.flatMap_nil, List.append_nil]
      · next next hsome =>
        rw [forwardLine] at hsome
        split_ifs at hsome with hlt
        obtain rfl := Option.some.inj hsome
        have hdrop : t.drop (nextLine t pos) = cs := by
          rw [hnext, ← List.drop_drop, hdrop]
          rfl
        rw [ih _ (by omega) (by omega) rfl, hdrop, List.append_assoc]

/-! ## What is loaded -/

/-- The kind of line end that the loader takes a delimiter for. -/
def lineEndOfDelim : Delim → Option MooLineEndType
  | .lf => some .unix
  | .cr => some .mac
  | .crlf => some .win32
  | .ps => none

/-- What a symbol of a file becomes in the buffer. -/
def loadedSym : Sym → List Char
  | .char c _ => [c]
  | .eol .ps => [paragraphSeparator]
  | .eol _ => ['\n']

/-- The kinds of the ends of the lines of a text, U+2029 not being one. -/
def lineEnds (S : List Sym) : List MooLineEndType :=
  S.filterMap fun
    | .char .. => none
    | .eol d => lineEndOfDelim d

theorem lineEnds_append (S S' : List Sym) : lineEnds (S ++ S') = lineEnds S ++ lineEnds S' :=
  List.filterMap_append

theorem lineEndOfTerm_encode (d : Delim) :
    lineEndOfTerm (Utf8.encode d.chars) = lineEndOfDelim d := by
  cases d <;> decide

theorem getLineChars_nil_term {cs : List Char} (h : (getLineChars cs).2.1 = none) :
    (getLineChars cs).2.2 = [] := by
  induction cs with
  | nil => rfl
  | cons c cs ih =>
    unfold getLineChars at h ⊢
    split_ifs at h ⊢
    exact ih h

/-- The first line of a text, symbol by symbol. -/
theorem paragraphs_getLineChars (cs : List Char) :
    ∃ S, (∀ s ∈ S, s.isEol = false) ∧ text S = (getLineChars cs).1 ∧
      paragraphs cs = S ++ (getLineChars cs).2.1.elim [] fun d =>
        .eol d :: paragraphs (getLineChars cs).2.2 := by
  induction cs with
  | nil => exact ⟨[], by simp, rfl, rfl⟩
  | cons c cs ih =>
    unfold getLineChars
    split
    · next hcr =>
      subst hcr
      by_cases hlf : cs.head? = some '\n'
      · obtain ⟨cs, rfl⟩ : ∃ cs', cs = '\n' :: cs' := by
          cases cs with
          | nil => simp at hlf
          | cons c cs => exact ⟨cs, by simpa using hlf⟩
        exact ⟨[], by simp, rfl, rfl⟩
      · refine ⟨[], by simp, by simp [hlf], ?_⟩
        rw [if_neg hlf, paragraphs, if_neg (by simp [hlf])]
        rfl
    · next hcr =>
      have hcons : paragraphs (c :: cs) = ofChar c :: paragraphs cs := by
        rw [paragraphs, if_neg (by simp [hcr])]
      split
      · next hlf =>
        subst hlf
        exact ⟨[], by simp, rfl, hcons⟩
      · next hlf =>
        split
        · next hps =>
          subst hps
          exact ⟨[], by simp, rfl, hcons⟩
        · next hps =>
          have hdelim : isDelim c = false := by simp [isDelim, hlf, hcr, hps]
          have hof : ofChar c = .char c hdelim := by simp [ofChar, hlf, hcr, hdelim]
          obtain ⟨S, hS, htext, hpar⟩ := ih
          refine ⟨.char c hdelim :: S, by simpa [Sym.isEol] using hS, ?_, ?_⟩
          · rw [text_cons, htext]
            rfl
          · rw [hcons, hof, hpar]
            rfl

namespace LoadState

theorem note_strbuf (s : LoadState) (b : List UInt8) (k : MooLineEndType) :
    { s with strbuf := b }.note k = { s.note k with strbuf := b } := by
  unfold note
  split_ifs <;> rfl

theorem foldl_note_strbuf (ks : List MooLineEndType) (s : LoadState) (b : List UInt8) :
    ks.foldl note { s with strbuf := b } = { ks.foldl note s with strbuf := b } := by
  induction ks generalizing s with
  | nil => rfl
  | cons k ks ih => rw [List.foldl_cons, note_strbuf, ih, List.foldl_cons]

/-- What the end of a line does to what has been collected. -/
theorem loadLine_encode (s : LoadState) (line : List UInt8) (d : Delim) :
    s.loadLine line (Utf8.encode d.chars) =
      { (lineEnds [.eol d]).foldl note s with
        strbuf := s.strbuf ++ line ++ Utf8.encode (loadedSym (.eol d)) } := by
  unfold loadLine
  rw [lineEndOfTerm_encode]
  cases d with
  | ps => rfl
  | lf | cr | crlf =>
    have hstrbuf (k : MooLineEndType) : (s.note k).strbuf = s.strbuf := by
      unfold note
      split_ifs <;> rfl
    simp only [lineEndOfDelim, hstrbuf]
    rfl

end LoadState

/-- The loader goes from line to line. -/
theorem loadLines_encode (cs : List Char) (s : LoadState) :
    loadLines s (Utf8.encode cs) =
      { (lineEnds (paragraphs cs)).foldl LoadState.note s with
        strbuf := s.strbuf ++ Utf8.encode ((paragraphs cs).flatMap loadedSym) } := by
  induction hn : (Utf8.encode cs).length using Nat.strong_induction_on generalizing cs s with
  | _ n ih =>
    obtain ⟨S, hS, htext, hpar⟩ := paragraphs_getLineChars cs
    have hline := mooLineReaderGetLine_encode cs
    have hshort := length_mooLineReaderGetLine (Utf8.encode cs)
    have hends : lineEnds S = [] := by
      refine List.filterMap_eq_nil_iff.2 fun sym hsym => ?_
      cases sym with
      | char => rfl
      | eol d => simpa [Sym.isEol] using hS _ hsym
    have hloaded : S.flatMap loadedSym = text S := by
      refine List.flatMap_congr fun sym hsym => ?_
      cases sym with
      | char => rfl
      | eol d => simpa [Sym.isEol] using hS _ hsym
    rw [loadLines]
    simp only [hline] at hshort ⊢
    generalize getLineChars cs = gl at *
    obtain ⟨line, term, rest⟩ := gl
    cases term with
    | none =>
      have hnil : paragraphs cs = S := by simpa using hpar
      have htermChars : Utf8.encode (termChars none) = [] := rfl
      simp only [htermChars, hnil, hends, hloaded, htext]
      simp [LoadState.loadLine, lineEndOfTerm]
    | some d =>
      have hne : Utf8.encode (termChars (some d)) ≠ [] := by cases d <;> simp [termChars] <;> decide
      have happ : lineEnds (paragraphs cs) = lineEnds [.eol d] ++ lineEnds (paragraphs rest) := by
        rw [hpar, Option.elim_some, List.append_cons, lineEnds_append, lineEnds_append, hends]
        rfl
      rw [dif_neg hne, ih _ (hn ▸ hshort hne) rest _ rfl, happ, List.foldl_append, hpar]
      have hload := s.loadLine_encode (Utf8.encode line) d
      simp only [termChars, Option.elim_some] at hload ⊢
      rw [hload, LoadState.foldl_note_strbuf]
      simp [hloaded, htext]

/-! ## Loading and saving -/

/-- The ends of the lines of a text are all of one kind. -/
def OneKind (t : List Char) : Prop :=
  ∃ le, ∀ le' ∈ lineEnds (paragraphs t), le' = le

/-- What a symbol of a file becomes when it is loaded and saved. -/
def savedSym (le : MooLineEndType) : Sym → List Char
  | .char c _ => [c]
  | .eol _ => match le with
    | .unix => ['\n']
    | .win32 => ['\r', '\n']
    | .mac => ['\r']

namespace LoadState

/-- Lines that all end alike are not mixed. -/
theorem foldl_note_eq {ks : List MooLineEndType} {k : MooLineEndType} (h : ∀ k' ∈ ks, k' = k)
    (s : LoadState) (hmixed : s.mixedLe = false) (hle : ∀ k' ∈ s.le, k' = k) :
    (ks.foldl note s).mixedLe = false ∧ (ks.foldl note s).le = if ks = [] then s.le else some k := by
  induction ks generalizing s with
  | nil => exact ⟨hmixed, rfl⟩
  | cons k' ks ih =>
    obtain rfl := h k' (by simp)
    have hany : s.le.any (· ≠ k') = false := by
      cases hs : s.le with
      | none => rfl
      | some k => simpa using hle k hs
    have hnote : s.note k' = { s with le := some k' } := by
      unfold note
      simp only [hmixed, hany, Bool.false_eq_true, or_self, if_false]
    rw [List.foldl_cons, hnote]
    obtain ⟨hmixed', hle'⟩ := ih (fun k hk => h k (by simp [hk])) { s with le := some k' } hmixed
      (by simp)
    refine ⟨hmixed', ?_⟩
    rw [hle', if_neg (List.cons_ne_nil _ _)]
    split_ifs <;> rfl

end LoadState

theorem mem_of_mem_paragraphs {cs : List Char} {sym : Sym} {c : Char} (h : sym ∈ paragraphs cs)
    (hc : c ∈ sym.chars) : c ∈ cs := by
  rw [← text_paragraphs cs]
  exact List.mem_flatMap.2 ⟨sym, h, hc⟩

theorem loadLines_nil (s : LoadState) : loadLines s [] = s := by
  rw [loadLines]
  simp [LoadState.loadLine, mooLineReaderGetLine, lineEndOfTerm]

/-- A loaded text has no zeros and no `\r`. -/
theorem notMem_loadedSym {cs : List Char} {c : Char} (h : c ∈ (paragraphs cs).flatMap loadedSym) :
    c ≠ '\r' ∧ (c ∈ cs ∨ c = '\n') := by
  obtain ⟨sym, hsym, hc⟩ := List.mem_flatMap.1 h
  cases sym with
  | char c' hc' =>
    obtain rfl := List.mem_singleton.1 hc
    refine ⟨?_, .inl (mem_of_mem_paragraphs hsym hc)⟩
    rintro rfl
    exact absurd hc' (by decide)
  | eol d =>
    cases d with
    | ps =>
      obtain rfl := List.mem_singleton.1 hc
      exact ⟨by decide, .inl (mem_of_mem_paragraphs hsym hc)⟩
    | lf | cr | crlf =>
      obtain rfl := List.mem_singleton.1 hc
      exact ⟨by decide, .inr rfl⟩

/-- Loading a symbol and saving what it became. -/
theorem flatMap_savedChar (le : MooLineEndType) (sym : Sym) :
    (loadedSym sym).flatMap (savedChar le.bytes) = Utf8.encode (savedSym le sym) := by
  cases sym with
  | char c hc => simp [loadedSym, savedChar, hc, savedSym, Utf8.encode]
  | eol d => cases d <;> cases le <;> decide

namespace MooEdit

variable {edit : MooEdit} {cs : List Char}

/-- The bytes that are saved again, for lines that all end alike. -/
theorem getContents_doLoadText (hempty : edit.buffer.text = []) (hnul : NulFree cs)
    (hkind : OneKind cs) :
    ∃ le, (∀ le' ∈ lineEnds (paragraphs cs), le' = le) ∧
      (edit.doLoadText (Utf8.encode cs)).getContents =
        Utf8.encode ((paragraphs cs).flatMap (savedSym le)) := by
  obtain ⟨k, hk⟩ := hkind
  have hstate : (mooLineReaderInit (Utf8.encode cs)).elim ⟨none, false, []⟩
      (loadLines ⟨none, false, []⟩) = loadLines ⟨none, false, []⟩ (Utf8.encode cs) := by
    unfold mooLineReaderInit
    split_ifs with hnil
    · rw [hnil, loadLines_nil]
      rfl
    · rfl
  obtain ⟨hmixed, hle⟩ := LoadState.foldl_note_eq hk ⟨none, false, []⟩ rfl (by simp)
  have hloaded : NulFree ((paragraphs cs).flatMap loadedSym) := by
    intro h
    rcases (notMem_loadedSym h).2 with hmem | hlf
    · exact hnul hmem
    · exact absurd hlf (by decide)
  have htext : (edit.doLoadText (Utf8.encode cs)).buffer.text =
      (paragraphs cs).flatMap loadedSym := by
    simp only [doLoadText, hstate, loadLines_encode, List.nil_append]
    rw [TextBuffer.text_insertText hloaded, hempty]
    simp
  refine ⟨(edit.doLoadText (Utf8.encode cs)).getLineEndType, fun le' hle' => ?_, ?_⟩
  · have hne : lineEnds (paragraphs cs) ≠ [] := List.ne_nil_of_mem hle'
    simp only [getLineEndType, doLoadText, hstate, loadLines_encode, hmixed, hle, if_neg hne]
    exact hk le' hle'
  · rw [getContents, contentsFrom_eq (fun h => (notMem_loadedSym (htext ▸ h)).1 rfl) _ (Nat.zero_le _),
      List.drop_zero, htext, List.flatMap_assoc]
    simp only [flatMap_savedChar]
    exact (List.flatMap_assoc (f := savedSym _) (g := String.utf8EncodeChar)).symm

/-- A file whose lines all end alike comes back as it was exactly when no U+2029 is in it: the saver
takes a U+2029 for the end of a line. -/
theorem load_save_iff (edit : MooEdit) (cs : List Char) (hempty : edit.buffer.text = [])
    (hnul : NulFree cs) (hkind : OneKind cs) :
    (edit.doLoadText (Utf8.encode cs)).getContents = Utf8.encode cs ↔
      paragraphSeparator ∉ cs := by
  obtain ⟨le, hle, hsaved⟩ := getContents_doLoadText hempty hnul hkind
  rw [hsaved]
  constructor
  · intro heq hps
    have hback : (paragraphs cs).flatMap (savedSym le) = cs := by
      simpa using congrArg Utf8.decode heq
    rw [← hback] at hps
    obtain ⟨sym, -, hc⟩ := List.mem_flatMap.1 hps
    cases sym with
    | char c hc' =>
      obtain rfl := List.mem_singleton.1 hc
      exact absurd hc' (by decide)
    | eol d => cases le <;> exact absurd hc (by simp [savedSym, paragraphSeparator])
  · intro hps
    conv_rhs => rw [← text_paragraphs cs]
    refine congrArg _ (List.flatMap_congr fun sym hsym => ?_)
    cases sym with
    | char c hc => rfl
    | eol d =>
      have hmem : ∀ k ∈ lineEndOfDelim d, k = le := fun k hk =>
        hle k (List.mem_filterMap.2 ⟨_, hsym, hk⟩)
      cases d with
      | ps => exact absurd (mem_of_mem_paragraphs hsym (c := paragraphSeparator) (by decide)) hps
      | lf | cr | crlf =>
        obtain rfl := hmem _ rfl
        rfl

end MooEdit

theorem MooEdit.load_save_windows :
    (MooEdit.untitled.doLoadText (Utf8.encode "a\r\nb".toList)).getContents =
      Utf8.encode "a\r\nb".toList :=
  (load_save_iff .untitled _ rfl (by decide) ⟨.win32, by decide⟩).2 (by decide)

/-- The U+2029 of a file becomes `\n`. -/
theorem MooEdit.load_save_separator :
    OneKind ['a', paragraphSeparator, 'b'] ∧
      (MooEdit.untitled.doLoadText
        (Utf8.encode ['a', paragraphSeparator, 'b'])).getContents ≠
        Utf8.encode ['a', paragraphSeparator, 'b'] := by
  have hnul : NulFree ['a', paragraphSeparator, 'b'] := by decide
  have hkind : OneKind ['a', paragraphSeparator, 'b'] := ⟨.unix, by decide⟩
  obtain ⟨le, -, hsaved⟩ := getContents_doLoadText (rfl : untitled.buffer.text = []) hnul hkind
  rw [hsaved]
  exact ⟨hkind, by cases le <;> decide⟩

end Medit
