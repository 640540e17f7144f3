import Medit.Library.CharLines
import Medit.Library.Leftmost
import Medit.Search.BatchApply

/-!
# Replacing all occurrences of a string

`moo_text_replace_all` for a plain pattern and with case, which searches a copy of the range. A
string that is valid UTF-8 begins at a character wherever it occurs, so the copy is its characters.

## Main definitions

* `isWholeWord`, `textIsWholeWord` — words in a buffer and in a copy of a part of it.
* `batchCollectPlain`, `mooTextReplaceAll` — `batch_collect_plain` and `moo_text_replace_all`.
* `occurrences` — the leftmost occurrences in a range that do not overlap.

## Main results

* `batchCollectPlain_eq` — what is collected.
* `replace_all_iff` — when the occurrences inside the range are replaced, and no others.
-/

namespace Medit

open CharLines Leftmost Paragraphs TextEdits

/-! ## Words -/

section Words

variable (alnum : Char → Bool)

/-- `is_word_unichar`; `alnum` is `g_unichar_isalnum`. -/
def isWordUnichar (c : Char) : Bool := c == '_' || alnum c

/-- `is_word_char`; at the end of the buffer there is no character. -/
def isWordChar (t : List Char) (pos : ℕ) : Bool := t[pos]?.any (isWordUnichar alnum)

/-- `is_whole_word` -/
def isWholeWord (t : List Char) (start stop : ℕ) : Bool :=
  if !startsLine t start && isWordChar alnum t (start - 1) then false
  else !(!endsLine t stop && isWordChar alnum t stop)

/-- `text_is_whole_word` -/
def textIsWholeWord (text : List Char) (start stop : ℕ) (wordBefore wordAfter : Bool) : Bool :=
  if (if start > 0 then isWordChar alnum text (start - 1) else wordBefore) then false
  else !(if stop < text.length then isWordChar alnum text stop else wordAfter)

end Words

/-! ## The search -/

/-- What `batch_collect_plain` searches for, and in which text. -/
structure PlainSearch where
  text : List Char
  startOffset : ℕ
  pattern : List Char
  replacement : List Char
  wholeWords : Bool
  wordBefore : Bool
  wordAfter : Bool

/-- The variables of the loop of `batch_collect_plain`. -/
structure PlainState where
  pos : ℕ
  cursor : ℕ
  cursorOffset : ℕ
  prevEnd : Option ℕ
  ms : List BatchMatch
  count : ℕ

section Search

variable (alnum : Char → Bool) (s : PlainSearch)

/-- Whether an occurrence is to be replaced. -/
def PlainSearch.accepts (pos : ℕ) : Bool :=
  !(s.wholeWords &&
    !textIsWholeWord alnum s.text pos (pos + s.pattern.length) s.wordBefore s.wordAfter)

/-- The text between the end of the last match and the next one, if that is on one line. -/
def PlainSearch.gap (prevEnd : Option ℕ) (pos : ℕ) : Option (List Char) :=
  prevEnd.bind fun prevEnd =>
    if '\n' ∈ (s.text.take pos).drop prevEnd then none else some ((s.text.take pos).drop prevEnd)

/-- The loop of `batch_collect_plain`. -/
def collectPlain : ℕ → PlainState → PlainState
  | 0, v => v
  | fuel + 1, v =>
    match strstr s.pattern (s.text.drop v.pos) with
    | none => v
    | some i =>
      let pos := v.pos + i
      let matchEnd := pos + s.pattern.length
      if s.accepts alnum pos then
        let cursorOffset := v.cursorOffset + (pos - v.cursor)
        let matchStart := s.startOffset + cursorOffset
        collectPlain fuel
          { pos := matchEnd, cursor := pos, cursorOffset, prevEnd := some matchEnd
            ms := batchAdd v.ms matchStart (matchStart + s.pattern.length) s.replacement
              (s.gap v.prevEnd pos)
            count := v.count + 1 }
      else collectPlain fuel { v with pos := matchEnd }

end Search

/-- `gtk_text_iter_forward_char` -/
def forwardChar (t : List Char) (pos : ℕ) : ℕ := min (pos + 1) t.length

/-- The copy of a part of a buffer, as `batch_collect_plain` searches it. -/
def plainSearch (alnum : Char → Bool) (b : GtkBuffer) (start limit : ℕ)
    (pattern replacement : List Char) (wholeWords : Bool) : PlainSearch where
  text := b.slice start limit
  startOffset := start
  pattern := pattern
  replacement := replacement
  wholeWords := wholeWords
  wordBefore := wholeWords && !startsLine b.text start && isWordChar alnum b.text (start - 1)
  wordAfter := wholeWords && !endsLine b.text limit && isWordChar alnum b.text limit

/-- `batch_collect_plain` -/
def batchCollectPlain (alnum : Char → Bool) (b : GtkBuffer) (start : ℕ) (stop : Option ℕ)
    (pattern replacement : List Char) (wholeWords : Bool) : List BatchMatch × ℕ :=
  let limit := match stop with
    | some stop => if stop ≠ b.text.length then forwardChar b.text stop else b.text.length
    | none => b.text.length
  let s := plainSearch alnum b start limit pattern replacement wholeWords
  let v := collectPlain alnum s (s.text.length + 1) ⟨0, 0, 0, none, [], 0⟩
  (v.ms, v.count)

/-- The matches that `moo_text_replace_all` collects for a plain pattern and with case. -/
def replaceAllMatches (alnum : Char → Bool) (b : GtkBuffer) (start : ℕ) (stop : Option ℕ)
    (text replacement : List Char) (wholeWords : Bool) : List BatchMatch × ℕ :=
  let stop := stop.bind fun stop =>
    if stop = b.text.length then none else some (forwardChar b.text stop)
  batchCollectPlain alnum b start stop text replacement wholeWords

/-- `moo_text_replace_all` without `MOO_TEXT_SEARCH_REGEX` and `MOO_TEXT_SEARCH_CASELESS`: the new
buffer and the number of replacements. -/
def mooTextReplaceAll (alnum : Char → Bool) (b : GtkBuffer) (start : ℕ) (stop : Option ℕ)
    (text replacement : List Char) (wholeWords : Bool) : GtkBuffer × ℕ :=
  let (ms, count) := replaceAllMatches alnum b start stop text replacement wholeWords
  (batchApply b ms, count)

example : mooTextReplaceAll (fun _ => false) ⟨['a', 'X', 'b', 'X'], 0, 0⟩ 0 none ['X'] ['y', 'y']
    false = (⟨['a', 'y', 'y', 'b', 'y', 'y'], 0, 0⟩, 2) := by decide

/-! ## What is collected -/

section Collected

variable {alnum : Char → Bool} {s : PlainSearch}

/-- The matches for places of the copy. -/
def PlainSearch.matchesOf (s : PlainSearch) : Option ℕ → List ℕ → List BatchMatch
  | _, [] => []
  | prevEnd, q :: qs =>
    ⟨s.startOffset + q, s.startOffset + q + s.pattern.length, s.replacement, s.gap prevEnd q⟩ ::
      s.matchesOf (some (q + s.pattern.length)) qs

/-- The loop takes the leftmost places, and of these the ones that are to be replaced. -/
theorem collectPlain_eq (hpattern : s.pattern ≠ []) {fuel : ℕ} {v : PlainState}
    (hfuel : s.text.length < v.pos + fuel) (hcursor : v.cursor ≤ v.pos)
    (hoffset : v.cursorOffset = v.cursor) :
    let qs := (select s.pattern.length v.pos (places s.pattern s.text)).filter (s.accepts alnum)
    (collectPlain alnum s fuel v).ms = v.ms ++ s.matchesOf v.prevEnd qs ∧
      (collectPlain alnum s fuel v).count = v.count + qs.length := by
  have hpos : 0 < s.pattern.length := List.length_pos_iff.2 hpattern
  induction fuel generalizing v with
  | zero =>
    have hnone : strstr s.pattern (s.text.drop v.pos) = none := by
      rw [List.drop_of_length_le (by omega)]
      simp [strstr, hpattern]
    simp [collectPlain, select_strstr_none hnone, PlainSearch.matchesOf]
  | succ fuel ih =>
    rw [collectPlain]
    cases hfind : strstr s.pattern (s.text.drop v.pos) with
    | none => simp [select_strstr_none hfind, PlainSearch.matchesOf]
    | some i =>
      simp only [select_strstr hpattern hfind, List.filter_cons]
      split
      · next haccepts =>
        obtain ⟨hms, hcount⟩ := ih (v := ⟨v.pos + i + s.pattern.length, v.pos + i,
          v.cursorOffset + (v.pos + i - v.cursor), some (v.pos + i + s.pattern.length),
          batchAdd v.ms _ _ s.replacement (s.gap v.prevEnd (v.pos + i)), v.count + 1⟩)
          (by simp only; omega) (by simp only; omega) (by simp only; omega)
        have hplace : v.cursorOffset + (v.pos + i - v.cursor) = v.pos + i := by omega
        rw [hms, hcount]
        refine ⟨?_, ?_⟩
        · simp [batchAdd, PlainSearch.matchesOf, hplace]
        · simp only [List.length_cons]
          omega
      · next haccepts => exact ih (by simp only; omega) (by simp only; omega) hoffset

end Collected

/-! ## What is replaced -/

/-- The leftmost occurrences with `ok` that lie in a range and do not overlap. -/
def occurrences (t pattern : List Char) (ok : ℕ → Bool) (start stop : ℕ) : List ℕ :=
  select pattern.length start
    ((places pattern t).filter fun q => ok q && decide (q + pattern.length ≤ stop))

/-- Whether an occurrence is a whole word, where that is asked for. -/
def wordAt (alnum : Char → Bool) (t pattern : List Char) (wholeWords : Bool) (q : ℕ) : Bool :=
  !(wholeWords && !isWholeWord alnum t q (q + pattern.length))

section Replaced

variable {alnum : Char → Bool} {b : GtkBuffer} {start limit : ℕ} {pattern replacement : List Char}
  {wholeWords : Bool}

theorem isWordUnichar_of_isDelim (halnum : ∀ c, isDelim c → alnum c = false) {c : Char}
    (hc : isDelim c) : isWordUnichar alnum c = false := by
  have hne : c ≠ '_' := by
    rintro rfl
    exact absurd hc (by decide)
  simp [isWordUnichar, halnum c hc, hne]

/-- In front of the start of a line there is no word. -/
theorem wordBefore_eq (halnum : ∀ c, isDelim c → alnum c = false) (t : List Char) (pos : ℕ) :
    (!startsLine t pos && isWordChar alnum t (pos - 1)) =
      (decide (0 < pos) && isWordChar alnum t (pos - 1)) := by
  cases hstart : startsLine t pos with
  | false =>
    have hpos : 0 < pos := by
      rw [startsLine, Bool.or_eq_false_iff] at hstart
      simpa [Nat.pos_iff_ne_zero] using hstart.1
    simp [hpos]
  | true =>
    simp only [startsLine, Bool.or_eq_true, beq_iff_eq] at hstart
    rcases hstart with rfl | hstart
    · simp
    · obtain ⟨c, hc, hdelim⟩ := (Option.any_eq_true _ _).1 hstart
      rw [Bool.and_eq_true] at hdelim
      simp [isWordChar, hc, isWordUnichar_of_isDelim halnum hdelim.1]

/-- At the end of a line there is no word. -/
theorem wordAfter_eq (halnum : ∀ c, isDelim c → alnum c = false) (t : List Char) (pos : ℕ) :
    (!endsLine t pos && isWordChar alnum t pos) = isWordChar alnum t pos := by
  cases hstop : endsLine t pos with
  | false => simp
  | true =>
    cases hc : t[pos]? with
    | none => simp [isWordChar, hc]
    | some c =>
      simp only [endsLine, hc, Option.all_some, Bool.and_eq_true] at hstop
      simp [isWordChar, hc, isWordUnichar_of_isDelim halnum hstop.1]

theorem isWholeWord_eq (halnum : ∀ c, isDelim c → alnum c = false) (t : List Char) (start stop : ℕ) :
    isWholeWord alnum t start stop =
      (!(decide (0 < start) && isWordChar alnum t (start - 1)) && !isWordChar alnum t stop) := by
  rw [isWholeWord, wordBefore_eq halnum, wordAfter_eq halnum]
  cases decide (0 < start) && isWordChar alnum t (start - 1) <;> rfl

/-- The end of what is searched for a range: two characters further, where there are so many. -/
theorem replaceAllMatches_eq (stop : Option ℕ) (hstop : ∀ e ∈ stop, e ≤ b.text.length) :
    replaceAllMatches alnum b start stop pattern replacement wholeWords =
      let s := plainSearch alnum b start (min (stop.getD b.text.length + 2) b.text.length) pattern
        replacement wholeWords
      let v := collectPlain alnum s (s.text.length + 1) ⟨0, 0, 0, none, [], 0⟩
      (v.ms, v.count) := by
  have hlimit : (match stop.bind fun stop =>
        if stop = b.text.length then none else some (forwardChar b.text stop) with
      | some stop => if stop ≠ b.text.length then forwardChar b.text stop else b.text.length
      | none => b.text.length) = min (stop.getD b.text.length + 2) b.text.length := by
    cases stop with
    | none => simp
    | some e =>
      have he := hstop e rfl
      by_cases hend : e = b.text.length
      · simp [hend]
      · have hforward : forwardChar b.text e = e + 1 := by
          rw [forwardChar]
          omega
        simp only [Option.bind_some, hend, if_false, hforward, Option.getD_some]
        split
        · rw [forwardChar]
        · omega
  unfold replaceAllMatches batchCollectPlain
  simp only [hlimit]

/-- Places of the copy are places of the buffer. -/
theorem mem_places_slice (hpattern : pattern ≠ []) (hlimit : limit ≤ b.text.length) {q : ℕ} :
    q ∈ places pattern (b.slice start limit) ↔
      start + q ∈ places pattern b.text ∧ start + q + pattern.length ≤ limit := by
  have hpos : 0 < pattern.length := List.length_pos_iff.2 hpattern
  rw [mem_places, mem_places, GtkBuffer.slice, List.drop_drop, List.length_drop,
    List.length_take_of_le hlimit, List.drop_take, List.prefix_take_iff]
  constructor
  · rintro ⟨hq, hpre, hle⟩
    exact ⟨⟨by omega, hpre⟩, by omega⟩
  · rintro ⟨⟨hq, hpre⟩, hle⟩
    exact ⟨by omega, hpre, by omega⟩

/-- What the loop finds in the copy, in the buffer. -/
theorem select_slice (hpattern : pattern ≠ []) (hlimit : limit ≤ b.text.length) :
    (select pattern.length 0 (places pattern (b.slice start limit))).map (start + ·) =
      occurrences b.text pattern (fun _ => true) start limit := by
  have hpos : 0 < pattern.length := List.length_pos_iff.2 hpattern
  refine select_unique ((pairwise_places ..).filter _) hpos ?_ (fun q hq => ?_) fun c hc hle => ?_
  · refine List.pairwise_map.2 ((pairwise_select ..).imp fun h => ?_)
    omega
  · obtain ⟨k, hk, rfl⟩ := List.mem_map.1 hq
    obtain ⟨hplace, hle⟩ := (mem_places_slice hpattern hlimit).1 ((select_sublist ..).mem hk)
    exact ⟨List.mem_filter.2 ⟨hplace, by simpa using hle⟩, by omega⟩
  · obtain ⟨hplace, hin⟩ := List.mem_filter.1 hc
    have hc' : start + (c - start) = c := by omega
    obtain ⟨q, hq, hqc⟩ := exists_mem_select (pairwise_places pattern (b.slice start limit)) hpos
      (a := 0) (c := c - start)
      ((mem_places_slice hpattern hlimit).2 ⟨by rwa [hc'], by simpa [hc'] using hin⟩) (by omega)
    exact ⟨start + q, List.mem_map.2 ⟨q, hq, rfl⟩, by omega, by omega⟩

/-- The characters of the copy. -/
theorem isWordChar_slice {q : ℕ} (hq : start + q < limit) :
    isWordChar alnum (b.slice start limit) q = isWordChar alnum b.text (start + q) := by
  rw [isWordChar, isWordChar, GtkBuffer.slice, List.getElem?_drop, List.getElem?_take_of_lt hq]

/-- A whole word of the copy is one of the buffer. -/
theorem accepts_plainSearch (halnum : ∀ c, isDelim c → alnum c = false) (hpattern : pattern ≠ [])
    (hlimit : limit ≤ b.text.length) {q : ℕ} (hq : start + q + pattern.length ≤ limit) :
    (plainSearch alnum b start limit pattern replacement wholeWords).accepts alnum q =
      wordAt alnum b.text pattern wholeWords (start + q) := by
  have hpos : 0 < pattern.length := List.length_pos_iff.2 hpattern
  cases wholeWords with
  | false => simp [PlainSearch.accepts, wordAt, plainSearch]
  | true =>
    have hlen : (b.slice start limit).length = limit - start := by
      rw [GtkBuffer.slice, List.length_drop, List.length_take_of_le hlimit]
    have hbefore : (if q > 0 then isWordChar alnum (b.slice start limit) (q - 1)
        else !startsLine b.text start && isWordChar alnum b.text (start - 1)) =
        (decide (0 < start + q) && isWordChar alnum b.text (start + q - 1)) := by
      split
      · next h =>
        have hprev : start + (q - 1) = start + q - 1 := by omega
        have hfront : 0 < start + q := by omega
        rw [isWordChar_slice (by omega), hprev]
        simp [hfront]
      · next h =>
        obtain rfl : q = 0 := by omega
        exact wordBefore_eq halnum b.text start
    have hafter : (if q + pattern.length < (b.slice start limit).length then
          isWordChar alnum (b.slice start limit) (q + pattern.length)
        else !endsLine b.text limit && isWordChar alnum b.text limit) =
        isWordChar alnum b.text (start + q + pattern.length) := by
      split
      · next h =>
        rw [isWordChar_slice (by omega), Nat.add_assoc]
      · next h =>
        have hstop : start + q + pattern.length = limit := by omega
        rw [wordAfter_eq halnum, hstop]
    simp only [PlainSearch.accepts, plainSearch, Bool.true_and, textIsWholeWord, hbefore, hafter,
      wordAt, isWholeWord_eq halnum]
    cases decide (0 < start + q) && isWordChar alnum b.text (start + q - 1) <;> simp

theorem matchesOf_edits (s : PlainSearch) (prevEnd : Option ℕ) (qs : List ℕ) :
    edits (s.matchesOf prevEnd qs) = (qs.map (s.startOffset + ·)).map fun q =>
      ⟨q, q + s.pattern.length, s.replacement⟩ := by
  induction qs generalizing prevEnd with
  | nil => rfl
  | cons q qs ih =>
    simp only [PlainSearch.matchesOf, edits, List.map_cons] at ih ⊢
    rw [ih]
    rfl

/-- What is collected from a copy is a batch of the buffer. -/
theorem isBatch_matchesOf {s : PlainSearch} {t : List Char} {qs : List ℕ}
    (htext : s.text = (t.take limit).drop s.startOffset) (hlimit : limit ≤ t.length)
    (hqs : qs.Pairwise fun q q' => q + s.pattern.length ≤ q')
    (hin : ∀ q ∈ qs, s.startOffset + q + s.pattern.length ≤ limit) (prevEnd : Option ℕ) :
    IsBatch t (s.matchesOf prevEnd qs) := by
  have hedits := matchesOf_edits s prevEnd qs
  have hranges : ∀ m ∈ s.matchesOf prevEnd qs, ∃ q ∈ qs,
      m.start = s.startOffset + q ∧ m.stop = s.startOffset + q + s.pattern.length := by
    intro m hm
    have hmem : m.edit ∈ edits (s.matchesOf prevEnd qs) := mem_edits.2 ⟨m, hm, rfl⟩
    rw [hedits, List.map_map] at hmem
    obtain ⟨q, hq, heq⟩ := List.mem_map.1 hmem
    exact ⟨q, hq, (congrArg Edit.start heq).symm, (congrArg Edit.stop heq).symm⟩
  refine ⟨fun m hm => ?_, ?_, ?_⟩
  · obtain ⟨q, hq, hstart, hstop⟩ := hranges m hm
    have := hin q hq
    omega
  · have hpair : (edits (s.matchesOf prevEnd qs)).Pairwise fun x y => x.stop ≤ y.start := by
      rw [hedits, List.map_map]
      refine List.pairwise_map.2 (hqs.imp fun h => ?_)
      simp only [Function.comp_apply]
      omega
    exact List.pairwise_map.1 hpair
  · clear hranges hedits
    induction qs generalizing prevEnd with
    | nil => exact .nil
    | cons q qs ih =>
      have hrest := ih (List.pairwise_cons.1 hqs).2 (fun x hx => hin x (by simp [hx]))
        (some (q + s.pattern.length))
      cases qs with
      | nil => exact List.isChain_singleton _
      | cons q' qs =>
        refine List.isChain_cons_cons.2 ⟨fun gap hgap => ?_, hrest⟩
        have hq' := hin q' (by simp)
        simp only [PlainSearch.gap, Option.bind_some, Option.mem_def] at hgap
        split at hgap
        · simp at hgap
        · obtain rfl := Option.some.inj hgap
          rw [htext, List.take_drop, List.drop_drop, List.take_take,
            Nat.min_eq_left (by omega), Nat.add_assoc]

/-- The leftmost occurrences that end at most two characters behind the range are collected. -/
theorem exists_replaceAllMatches (halnum : ∀ c, isDelim c → alnum c = false) (start : ℕ)
    (stop : Option ℕ) (hstop : stop.getD b.text.length ≤ b.text.length) (replacement : List Char)
    (hpattern : pattern ≠ []) (wholeWords : Bool) :
    ∃ ms : List BatchMatch,
      replaceAllMatches alnum b start stop pattern replacement wholeWords = (ms, ms.length) ∧
        IsBatch b.text ms ∧
        edits ms = ((occurrences b.text pattern (fun _ => true) start
          (min (stop.getD b.text.length + 2) b.text.length)).filter
            (wordAt alnum b.text pattern wholeWords)).map fun q =>
              ⟨q, q + pattern.length, replacement⟩ := by
  have hmatches := @replaceAllMatches_eq alnum _ start pattern replacement wholeWords stop (by
      rintro e rfl
      exact hstop)
  have hlimit : min (stop.getD b.text.length + 2) b.text.length ≤ b.text.length :=
    Nat.min_le_right ..
  generalize min (stop.getD b.text.length + 2) b.text.length = limit at hmatches hlimit ⊢
  let s := plainSearch alnum b start limit pattern replacement wholeWords
  let qs := (select pattern.length 0 (places pattern s.text)).filter (s.accepts alnum)
  obtain ⟨hms, hcount⟩ := @collectPlain_eq alnum s hpattern
    (s.text.length + 1) ⟨0, 0, 0, none, [], 0⟩ (by simp) (Nat.le_refl 0) rfl
  have hedits := matchesOf_edits s none qs
  have hin : ∀ q ∈ select pattern.length 0 (places pattern s.text),
      start + q + pattern.length ≤ limit := fun q hq =>
    ((mem_places_slice hpattern hlimit).1 ((select_sublist ..).mem hq)).2
  have hqs : qs.map (start + ·) = (occurrences b.text pattern (fun _ => true) start limit).filter
      (wordAt alnum b.text pattern wholeWords) := by
    rw [← select_slice hpattern hlimit, List.filter_map]
    refine congrArg _ (List.filter_congr fun q hq => ?_)
    exact accepts_plainSearch halnum hpattern hlimit (hin q hq)
  have hlen : (edits (s.matchesOf none qs)).length = qs.length := by simp [hedits]
  refine ⟨s.matchesOf none qs, ?_, ?_, ?_⟩
  · rw [hmatches]
    refine Prod.ext hms (hcount.trans ?_)
    rw [Nat.zero_add]
    exact hlen.symm.trans (List.length_map _)
  · exact isBatch_matchesOf rfl hlimit ((pairwise_select ..).filter _)
      (fun q hq => hin q (List.mem_filter.1 hq).1) none
  · rw [hedits]
    exact congrArg _ hqs

/-- The occurrences inside the range are replaced, and no others, unless one that begins in it ends up
to two characters behind it, or one that is not a whole word hides one that is. -/
theorem replace_all_iff (alnum : Char → Bool) (halnum : ∀ c, isDelim c → alnum c = false)
    (b : GtkBuffer) (hinsert : b.insert ≤ b.text.length) (hbound : b.selectionBound ≤ b.text.length)
    (start : ℕ) (stop : Option ℕ) (hstart : start ≤ stop.getD b.text.length)
    (hstop : stop.getD b.text.length ≤ b.text.length) (pattern replacement : List Char)
    (hpattern : pattern ≠ []) (wholeWords : Bool) :
    let stop' := stop.getD b.text.length
    let ok := wordAt alnum b.text pattern wholeWords
    let inside := occurrences b.text pattern ok start stop'
    let found := occurrences b.text pattern (fun _ => true) start (min (stop' + 2) b.text.length)
    let result := mooTextReplaceAll alnum b start stop pattern replacement wholeWords
    ((replaceAllMatches alnum b start stop pattern replacement wholeWords).1.map (·.start) = inside ∧
      result.2 = inside.length ∧
      result.1.text =
        replaceAll (inside.map fun q => ⟨q, q + pattern.length, replacement⟩) b.text ∧
      ∃ mid, result.1.text = b.text.take start ++ (mid ++ b.text.drop stop')) ↔
    (∀ q ∈ found, ok q → q + pattern.length ≤ stop') ∧
      ∀ q ∈ places pattern b.text, start ≤ q → q + pattern.length ≤ stop' → ok q →
        ∀ a ∈ found, a < q → q < a + pattern.length → ok a := by
  intro stop' ok inside found result
  have hpos : 0 < pattern.length := List.length_pos_iff.2 hpattern
  have hlimit : min (stop' + 2) b.text.length ≤ b.text.length := Nat.min_le_right ..
  have hfound : found.filter ok = inside ↔ (∀ q ∈ found, ok q → q + pattern.length ≤ stop') ∧
      ∀ q ∈ places pattern b.text, start ≤ q → q + pattern.length ≤ stop' → ok q →
        ∀ a ∈ found, a < q → q < a + pattern.length → ok a := by
    have hiff := @filter_select_iff _ start _ ok
      (fun q => decide (q + pattern.length ≤ stop'))
      ((pairwise_places pattern b.text).filter fun q =>
        true && decide (q + pattern.length ≤ min (stop' + 2) b.text.length)) hpos
    have hfilter : ((places pattern b.text).filter fun q =>
        true && decide (q + pattern.length ≤ min (stop' + 2) b.text.length)).filter
          (fun q => ok q && decide (q + pattern.length ≤ stop')) =
        (places pattern b.text).filter fun q => ok q && decide (q + pattern.length ≤ stop') := by
      rw [List.filter_filter]
      refine List.filter_congr fun q _ => ?_
      have hle : q + pattern.length ≤ stop' → q + pattern.length ≤ min (stop' + 2) b.text.length := by
        omega
      by_cases hq : q + pattern.length ≤ stop'
      · simp [hq, hle hq]
      · simp [hq]
    rw [hfilter] at hiff
    refine hiff.trans (and_congr (by simp [found, occurrences]) ⟨fun h q hq hsq hqe hok => ?_,
      fun h q hq hsq hok hqe => h q (List.mem_filter.1 hq).1 hsq (by simpa using hqe) hok⟩)
    exact h q (List.mem_filter.2 ⟨hq, by simp; omega⟩) hsq hok (by simpa using hqe)
  obtain ⟨ms, hmatches, hbatch, hedits⟩ :=
    exists_replaceAllMatches halnum start stop hstop replacement hpattern wholeWords
  have hstarts : ms.map (·.start) = found.filter ok := by
    have hmap := congrArg (List.map Edit.start) hedits
    simpa [edits, BatchMatch.edit, Function.comp_def] using hmap
  have hlength : ms.length = (found.filter ok).length := by
    rw [← hstarts, List.length_map]
  have hresult : result = (batchApply b ms, ms.length) := by
    simp only [result, mooTextReplaceAll, hmatches]
  obtain ⟨htext, -, -⟩ := batchApply_eq hbatch hinsert hbound
  rw [hedits] at htext
  simp only [hmatches, hstarts, hresult]
  rw [← hfound]
  refine ⟨fun h => h.1, fun h => ?_⟩
  rw [h] at hlength htext hedits ⊢
  refine ⟨rfl, hlength, htext, ?_⟩
  have hrange : ∀ e ∈ edits ms, start ≤ e.start ∧ e.start ≤ e.stop ∧ e.stop ≤ stop' := by
    intro e he
    rw [hedits] at he
    obtain ⟨q, hq, rfl⟩ := List.mem_map.1 he
    have hin := (List.mem_filter.1 ((select_sublist ..).mem hq)).2
    rw [Bool.and_eq_true, decide_eq_true_eq] at hin
    exact ⟨le_of_mem_select hq, Nat.le_add_right .., hin.2⟩
  obtain ⟨mid, hmid⟩ := exists_foldr_apply hstart hstop hrange hbatch.edits_ordered
  refine ⟨mid, ?_⟩
  rw [htext, ← hmid, foldr_apply hbatch.edits_inside hbatch.edits_ordered, hedits]

/-- A word at the start of a range that ends in front of another one. -/
theorem replace_all_first_word :
    let b : GtkBuffer := ⟨['X', ' ', 'a', 'b', ' ', 'X'], 0, 2⟩
    let alnum : Char → Bool := Char.isAlphanum
    (mooTextReplaceAll alnum b 0 (some 2) ['X'] ['y', 'y'] true).2 = 1 ∧
      (mooTextReplaceAll alnum b 0 (some 2) ['X'] ['y', 'y'] true).1.text =
        replaceAll [⟨0, 1, ['y', 'y']⟩] b.text := by
  intro b alnum
  have halnum : ∀ c, isDelim c → alnum c = false := by
    intro c hc
    simp only [isDelim, Bool.or_eq_true, beq_iff_eq] at hc
    rcases hc with (rfl | rfl) | rfl <;> decide
  have h := (replace_all_iff alnum halnum b (by decide) (by decide) 0 (some 2) (by decide)
    (by decide) ['X'] ['y', 'y'] (by decide) true).2 (by decide)
  have hinside : occurrences b.text ['X'] (wordAt alnum b.text ['X'] true) 0 2 = [0] := by decide
  simp only [Option.getD_some, hinside] at h
  exact ⟨h.2.1, h.2.2.1⟩

/-- A selection of one letter, and an occurrence behind it. -/
theorem replace_all_behind_selection :
    let b : GtkBuffer := ⟨['a', 'b', 'c'], 0, 1⟩
    let result := mooTextReplaceAll (fun _ => false) b 0 (some 1) ['b', 'c'] ['X'] false
    result.1.text = ['a', 'X'] ∧ result.2 = 1 ∧
      occurrences b.text ['b', 'c'] (wordAt (fun _ => false) b.text ['b', 'c'] false) 0 1 = [] := by
  decide

end Replaced

end Medit
