import Medit.TextBuffer.Comments

/-!
# Comments around blocks

What the searches of `moo_edit_uncomment_selection` find, and what `moo_edit_comment_selection` puts
around a block.

## Main definitions

* `SelectedText.IsNext`, `SelectedText.IsPrevious` — what a search forward and one backward find.
* `SelectedText.BlockAt` — a buffer around what is commented out in it.

## Main results

* `SelectedText.searchForward_eq_some`, `SelectedText.searchBackward_eq_some` — the searches.
* `SelectedText.commentSelection_block` — the text and its selection after a block has been
  commented out.
-/

namespace Medit

open Paragraphs CharLines Leftmost

namespace SelectedText

variable {b : SelectedText} {S P N Q : List Sym} {str commentStart commentEnd : List Char}
  {start stop limit q r : ℕ}

/-! ## Searches -/

/-- A string stands at a place. -/
def OccursAt (S : List Sym) (str : List Char) (q : ℕ) : Prop := str.map ofChar <+: S.drop q

instance (S : List Sym) (str : List Char) (q : ℕ) : Decidable (OccursAt S str q) :=
  inferInstanceAs (Decidable (_ <+: _))

theorem OccursAt.le (h : OccursAt S str q) (hne : str ≠ []) : q + str.length ≤ S.length := by
  have hle := h.length_le
  rw [List.length_map, List.length_drop] at hle
  have := List.length_pos_iff.2 hne
  omega

theorem OccursAt.getElem? (h : OccursAt S str q) {i : ℕ} (hi : i < str.length) :
    S[q + i]? = some (ofChar str[i]) := by
  obtain ⟨rest, hrest⟩ := h
  rw [← List.getElem?_drop, ← hrest, List.getElem?_append_left (by simpa using hi)]
  simp [hi]

/-- The first occurrence behind `start`, which stops at most one character behind the limit. -/
structure IsNext (S : List Sym) (start : ℕ) (str : List Char) (limit q : ℕ) : Prop where
  le : start ≤ q
  occurs : OccursAt S str q
  first : ∀ j, start ≤ j → OccursAt S str j → q ≤ j
  limit : limit = S.length ∨ q + str.length ≤ limit + 1

/-- The last occurrence between the limit and `start`. -/
structure IsPrevious (S : List Sym) (start : ℕ) (str : List Char) (limit q : ℕ) : Prop where
  le : limit ≤ q
  occurs : OccursAt S str q
  stop : q + str.length ≤ start
  last : ∀ j, OccursAt S str j → j + str.length ≤ start → j ≤ q

theorem searchForward_eq_some (hne : str ≠ []) : searchForward S start str limit = some (q, r) ↔
    IsNext S start str limit q ∧ r = q + str.length := by
  have hpos := List.length_pos_iff.2 hne
  rw [searchForward, Option.bind_eq_some_iff]
  constructor
  · rintro ⟨i, hi, heq⟩
    obtain ⟨hoccurs, -, hfirst⟩ := strstr_eq_some.1 hi
    split_ifs at heq with hlimit
    obtain ⟨rfl, rfl⟩ : start + i = q ∧ start + i + str.length = r := by simpa using heq
    refine ⟨⟨Nat.le_add_right .., by rwa [OccursAt, ← List.drop_drop], fun j hj hocc => ?_,
      hlimit⟩, rfl⟩
    by_contra hlt
    obtain ⟨k, rfl⟩ := Nat.exists_eq_add_of_le hj
    refine hfirst k (by omega) ?_
    rwa [List.drop_drop]
  · rintro ⟨⟨hle, hoccurs, hfirst, hlimit⟩, rfl⟩
    obtain ⟨i, rfl⟩ := Nat.exists_eq_add_of_le hle
    refine ⟨i, strstr_eq_some.2 ⟨by rwa [List.drop_drop], ?_, fun j hj hocc => ?_⟩, ?_⟩
    · have := hoccurs.le hne
      rw [List.length_drop]
      omega
    · rw [List.drop_drop] at hocc
      have := hfirst (start + j) (Nat.le_add_right ..) hocc
      omega
    · rw [if_pos hlimit]

theorem mem_places_take (hne : str ≠ []) : q ∈ places (str.map ofChar) (S.take start) ↔
    OccursAt S str q ∧ q + str.length ≤ start := by
  have hpos := List.length_pos_iff.2 hne
  rw [mem_places, OccursAt, List.drop_take, List.prefix_take_iff, List.length_map,
    List.length_take]
  constructor
  · rintro ⟨hlt, hpre, hle⟩
    exact ⟨hpre, by omega⟩
  · rintro ⟨hpre, hle⟩
    have := OccursAt.le hpre hne
    exact ⟨by omega, hpre, by omega⟩

theorem searchBackward_eq_some (hne : str ≠ []) :
    searchBackward S start str limit = some (q, r) ↔
      IsPrevious S start str limit q ∧ r = q + str.length := by
  have hpos := List.length_pos_iff.2 hne
  have hlast (i : ℕ) := getLast?_eq_some_iff (c := i)
    (pairwise_places (str.map ofChar) (S.take start))
  simp only [mem_places_take hne] at hlast
  unfold searchBackward
  split
  · next hle =>
    refine iff_of_false (by simp) ?_
    rintro ⟨⟨hle', -, hstop, -⟩, -⟩
    omega
  · simp only [Option.bind_eq_some_iff, hlast]
    constructor
    · rintro ⟨i, ⟨⟨hoccurs, hstop⟩, hmax⟩, heq⟩
      split_ifs at heq with hlimit
      obtain ⟨rfl, rfl⟩ : i = q ∧ i + str.length = r := by simpa using heq
      exact ⟨⟨hlimit, hoccurs, hstop, fun j hj hle => hmax j ⟨hj, hle⟩⟩, rfl⟩
    · rintro ⟨⟨hle, hoccurs, hstop, hmax⟩, rfl⟩
      exact ⟨q, ⟨⟨hoccurs, hstop⟩, fun j hj => hmax j hj.1 hj.2⟩, if_pos hle⟩

theorem searchForward_eq_none (hne : str ≠ []) :
    searchForward S start str limit = none ↔ ∀ q, ¬ IsNext S start str limit q := by
  rw [Option.eq_none_iff_forall_ne_some]
  constructor
  · exact fun h q hq => h (q, q + str.length) ((searchForward_eq_some hne).2 ⟨hq, rfl⟩)
  · exact fun h p hp => h p.1 ((searchForward_eq_some hne).1 hp).1

theorem searchBackward_eq_none (hne : str ≠ []) :
    searchBackward S start str limit = none ↔ ∀ q, ¬ IsPrevious S start str limit q := by
  rw [Option.eq_none_iff_forall_ne_some]
  constructor
  · exact fun h q hq => h (q, q + str.length) ((searchBackward_eq_some hne).2 ⟨hq, rfl⟩)
  · exact fun h p hp => h p.1 ((searchBackward_eq_some hne).1 hp).1

/-! ## What is commented out -/

/-- The end of a line, from behind it. -/
theorem lineEnd_backwardLine {i : ℕ} {d : Delim} (h : S[i]? = some (.eol d)) :
    lineEnd S (backwardLine S (i + 1)) = i := by
  have hi := (List.getElem?_eq_some_iff.1 h).1
  obtain ⟨P, N, Q, hat, hle, hge⟩ := exists_lineAt_of_le S hi.le
  obtain ⟨k, rfl⟩ := Nat.exists_eq_add_of_le hle
  have hk : k = N.length := by
    by_contra hne
    have hlt : k < N.length := by omega
    rw [hat.eq, List.getElem?_append_right (by omega), Nat.add_sub_cancel_left,
      List.getElem?_append_left hlt, List.getElem?_eq_getElem hlt, Option.some.injEq] at h
    have hline := hat.line _ (List.getElem_mem hlt)
    rw [h] at hline
    cases hline
  have hself : lineStart S (P.length + k + 1) = P.length + k + 1 := by
    rw [lineStart, h]
    rfl
  rw [backwardLine, hself, if_neg (by omega), Nat.add_sub_cancel, lineStart_eq hat (by omega)]
  have hend := lineEnd_eq hat (Nat.zero_le _)
  rw [Nat.add_zero] at hend
  omega

/-- A buffer around what is commented out in it. -/
structure BlockAt (b : SelectedText) (A T B : List Sym) : Prop where
  eq : b.syms = A ++ (T ++ B)
  range : blockRange b.syms b.start b.stop = (A.length, A.length + T.length)
  cursor : b.start = b.stop →
    LineAt b.syms A T B ∧ A.length ≤ b.start ∧ b.start ≤ A.length + T.length
  selection : b.start ≠ b.stop → b.start = A.length ∧
    (b.stop = A.length + T.length ∧ ¬ startsLine b.syms b.stop ∨
      b.stop = A.length + T.length + 1 ∧ EolFirst B ∧ B ≠ [])

theorem exists_blockAt (hinsert : b.insert ≤ b.syms.length)
    (hbound : b.selectionBound ≤ b.syms.length) : ∃ A T B, BlockAt b A T B := by
  have hle : b.start ≤ b.stop := min_le_max
  have hstop : b.stop ≤ b.syms.length := max_le hinsert hbound
  -- a range that is known by its ends
  have hcut {a e : ℕ} (ha : a ≤ e) (he : e ≤ b.syms.length) : ∃ A T B,
      b.syms = A ++ (T ++ B) ∧ A.length = a ∧ A.length + T.length = e := by
    refine ⟨b.syms.take a, (b.syms.take e).drop a, b.syms.drop e, ?_, ?_, ?_⟩
    · have htake : b.syms.take a = (b.syms.take e).take a := by
        rw [List.take_take, Nat.min_eq_left ha]
      rw [htake, ← List.append_assoc, List.take_append_drop, List.take_append_drop]
    · simp
      omega
    · simp
      omega
  by_cases hsel : b.start = b.stop
  · obtain ⟨P, N, Q, hat, hge, hlt⟩ := exists_lineAt_of_le b.syms (hle.trans hstop)
    obtain ⟨k, hk⟩ := Nat.exists_eq_add_of_le hge
    refine ⟨P, N, Q, hat.eq, ?_, fun _ => ⟨hat, hge, hlt⟩, fun hne => absurd hsel hne⟩
    rw [blockRange, if_pos hsel, ← hsel, hk, lineStart_eq hat (by omega), lineEnd_eq hat (by omega)]
  · by_cases hstarts : startsLine b.syms b.stop
    · obtain ⟨n, hn⟩ := Nat.exists_eq_succ_of_ne_zero (by omega : b.stop ≠ 0)
      have heol := hstarts
      rw [hn, startsLine_succ] at heol
      obtain ⟨s, hs, heol⟩ := Option.any_eq_true _ _ |>.1 heol
      cases s with
      | char c hc => cases heol
      | eol d =>
        obtain ⟨A, T, B, heq, hA, hT⟩ := hcut (a := b.start) (e := n) (by omega) (by omega)
        have hB : B[0]? = some (.eol d) := by
          rw [heq, ← List.append_assoc, List.getElem?_append_right (by simp; omega)] at hs
          rwa [List.length_append, hT, Nat.sub_self] at hs
        refine ⟨A, T, B, heq, ?_, fun h => absurd h hsel, fun _ => ⟨hA.symm, Or.inr ⟨by omega, ?_⟩⟩⟩
        · rw [blockRange, if_neg hsel, if_pos hstarts, hn, lineEnd_backwardLine hs, hA, ← hT, hA]
        · cases B with
          | nil => simp at hB
          | cons s B =>
            obtain rfl : s = .eol d := by simpa using hB
            exact ⟨Or.inr ⟨d, B, rfl⟩, List.cons_ne_nil _ _⟩
    · obtain ⟨A, T, B, heq, hA, hT⟩ := hcut hle hstop
      refine ⟨A, T, B, heq, ?_, fun h => absurd h hsel,
        fun _ => ⟨hA.symm, Or.inl ⟨hT.symm, hstarts⟩⟩⟩
      rw [blockRange, if_neg hsel, if_neg hstarts, hT, hA]

/-! ## What has been commented out -/

/-- The language has a block comment and no line comment. -/
structure BlockLang (lang : MooLang) (commentStart commentEnd : List Char) : Prop where
  line : lang.lineComment = none
  start : lang.blockCommentStart = some commentStart
  stop : lang.blockCommentEnd = some commentEnd
  start_ne : commentStart ≠ []
  stop_ne : commentEnd ≠ []
  start_isDelim : ∀ c ∈ commentStart, isDelim c = false
  stop_isDelim : ∀ c ∈ commentEnd, isDelim c = false

theorem insert_append {A R : List Sym} {t : List Char} (ht : ∀ c ∈ t, isDelim c = false) :
    Paragraphs.insert (A ++ R) A.length t = A ++ (t.map ofChar ++ R) := by
  rw [insert_eq ht, List.take_left, List.drop_left]

/-- A line that begins with a part without ends of lines has at least its length. -/
theorem length_le_of_lineAt {X R : List Sym} (hX : ∀ s ∈ X, s.isEol = false)
    (h : LineAt (P ++ (X ++ R)) P N Q) : X.length ≤ N.length := by
  have heq := List.append_cancel_left h.eq
  by_contra hlt
  have hget : (X ++ R)[N.length]? = (N ++ Q)[N.length]? := by rw [heq]
  rw [List.getElem?_append_left (by omega), List.getElem?_append_right le_rfl, Nat.sub_self,
    List.getElem?_eq_getElem (by omega)] at hget
  rcases h.eolFirst with rfl | ⟨d, Q, rfl⟩
  · simp at hget
  · rw [List.getElem?_cons_zero, Option.some.injEq] at hget
    have := hX _ (List.getElem_mem (by omega : N.length < X.length))
    rw [hget] at this
    cases this

section Commented

variable {lang : MooLang} {A T B : List Sym}

/-- Where a mark is after both insertions. -/
def commentedMark (a e len len' mark : ℕ) : ℕ :=
  markAfterInsert (e + len) len' (markAfterInsert a len mark)

theorem commentedMark_eq {a e len len' mark : ℕ} (ha : a ≤ mark) :
    commentedMark a e len len' mark = mark + len + if e ≤ mark then len' else 0 := by
  unfold commentedMark markAfterInsert
  split_ifs <;> omega

theorem length_paragraphs {t : List Char} (ht : ∀ c ∈ t, isDelim c = false) :
    (paragraphs t).length = t.length := by
  rw [paragraphs_of_line ht, List.length_map]

theorem blockComment_eq (hl : BlockLang lang commentStart commentEnd) (h : BlockAt b A T B) :
    let b' := blockComment commentStart commentEnd b.start b.stop b
    let mark := commentedMark A.length (A.length + T.length) commentStart.length commentEnd.length
    b'.syms = A ++ (commentStart.map ofChar ++ (T ++ (commentEnd.map ofChar ++ B))) ∧
      b'.insert = mark b.insert ∧ b'.selectionBound = mark b.selectionBound := by
  intro b' mark
  have hmark : markAfterInsert A.length commentStart.length (A.length + T.length) =
      A.length + T.length + commentStart.length := if_pos (Nat.le_add_right ..)
  have hb' : b' = (b.insertText A.length commentStart).insertText
      (A.length + T.length + commentStart.length) commentEnd := by
    change blockComment commentStart commentEnd b.start b.stop b = _
    rw [blockComment, if_neg (by simp [hl.start_ne, hl.stop_ne])]
    simp only [h.range, length_paragraphs hl.start_isDelim, hmark]
  refine ⟨?_, ?_, ?_⟩
  · have hlen : A.length + T.length + commentStart.length =
        (A ++ (commentStart.map ofChar ++ T)).length := by
      simp
      omega
    rw [hb']
    simp only [insertText]
    rw [h.eq, insert_append hl.start_isDelim, hlen]
    have happend : A ++ (commentStart.map ofChar ++ (T ++ B)) =
        A ++ (commentStart.map ofChar ++ T) ++ B := by simp
    rw [happend, insert_append hl.stop_isDelim]
    simp
  · rw [hb']
    simp only [insertText, length_paragraphs hl.start_isDelim, length_paragraphs hl.stop_isDelim]
    rfl
  · rw [hb']
    simp only [insertText, length_paragraphs hl.start_isDelim, length_paragraphs hl.stop_isDelim]
    rfl

/-- The start of the selection stays at its offset. -/
theorem getIterAtLineOffset_commented (R : List Sym) (h : BlockAt b A T B)
    (hsel : b.start ≠ b.stop) :
    getIterAtLineOffset (A ++ R) (line b.syms b.start) (b.start - lineStart b.syms b.start) =
      b.start := by
  obtain ⟨hA, -⟩ := h.selection hsel
  have hle : b.start ≤ b.syms.length := by
    rw [hA, h.eq]
    simp
  obtain ⟨P, N, Q, hat, hge, hlt⟩ := exists_lineAt_of_le b.syms hle
  obtain ⟨k, hk⟩ := Nat.exists_eq_add_of_le hge
  have hA' : A = P ++ N.take k := by
    rw [← hat.take_eq (by omega), ← hk, hA, h.eq, List.take_left]
  have hX : ∀ s ∈ N.take k, s.isEol = false := fun s hs => hat.line s (List.mem_of_mem_take hs)
  obtain ⟨N', Q', hat'⟩ := exists_lineAt_of_whole hat.whole (N.take k ++ R)
  have hlen := length_le_of_lineAt hX hat'
  rw [List.length_take_of_le (by omega)] at hlen
  rw [hk, line_eq hat (by omega), lineStart_eq hat (by omega), Nat.add_sub_cancel_left, hA',
    List.append_assoc, getIterAtLineOffset, getIterAtLine_eq hat', hat'.eq, List.drop_left,
    walkLine_eq hat'.line hlen]

theorem commentSelection_block (hl : BlockLang lang commentStart commentEnd) (h : BlockAt b A T B) :
    let b' := commentSelection lang b
    b'.syms = A ++ (commentStart.map ofChar ++ (T ++ (commentEnd.map ofChar ++ B))) ∧
      (b.start = b.stop → b'.start = b'.stop ∧ b'.start = b.start + commentStart.length +
        if b.start = A.length + T.length then commentEnd.length else 0) ∧
      (b.start ≠ b.stop → b'.start = A.length ∧
        b'.stop = b.stop + commentStart.length + commentEnd.length) := by
  intro b'
  obtain ⟨hsyms, hinsert, hbound⟩ := blockComment_eq hl h
  have hb' : b' = commentSelection lang b := rfl
  simp only [commentSelection, hasComments, comment, hl.line, hl.start, hl.stop, Option.isSome_none,
    Option.isSome_some, Bool.and_self, Bool.or_true, Bool.not_true, Bool.false_eq_true, if_false,
    Option.getD_some] at hb'
  generalize blockComment commentStart commentEnd b.start b.stop b = c at hsyms hinsert hbound hb'
  by_cases hsel : b.start = b.stop
  · rw [if_neg (by simpa using hsel)] at hb'
    obtain ⟨-, hge, hle⟩ := h.cursor hsel
    have hmarks : b.insert = b.start ∧ b.selectionBound = b.start := by
      simp only [start, stop] at hsel ⊢
      omega
    rw [hmarks.1, commentedMark_eq hge] at hinsert
    rw [hmarks.2, commentedMark_eq hge, ← hinsert] at hbound
    have hbounds : b'.start = c.insert ∧ b'.stop = c.insert := by
      simp [hb', start, stop, hbound]
    refine ⟨by rw [hb', ← hsyms], fun _ => ⟨by rw [hbounds.1, hbounds.2], ?_⟩,
      fun hne => absurd hsel hne⟩
    rw [hbounds.1, hinsert]
    split_ifs <;> omega
  · rw [if_pos hsel, hsyms, getIterAtLineOffset_commented _ h hsel] at hb'
    obtain ⟨hA, hstop⟩ := h.selection hsel
    have hlt : A.length + T.length ≤ b.stop := by
      rcases hstop with ⟨hstop, -⟩ | ⟨hstop, -⟩ <;> omega
    have hold : b.start < b.stop := Nat.lt_of_le_of_ne min_le_max hsel
    have hmark : commentedMark A.length (A.length + T.length) commentStart.length commentEnd.length
        b.stop = b.stop + commentStart.length + commentEnd.length := by
      rw [commentedMark_eq (by omega), if_pos hlt]
    refine ⟨?_, fun heq => absurd heq hsel, fun _ => ?_⟩
    · rw [hb', ← hsyms]
      split_ifs <;> rfl
    · rcases Nat.lt_or_ge b.insert b.selectionBound with hlt' | hge'
      · have hmarks : b.start = b.insert ∧ b.stop = b.selectionBound := by
          simp only [start, stop]
          omega
        rw [if_pos hmarks.1.symm] at hb'
        rw [← hmarks.2, hmark] at hbound
        simp only [hb', start, stop, hbound]
        simp only [start, stop] at hA hold ⊢
        omega
      · have hmarks : b.start = b.selectionBound ∧ b.stop = b.insert := by
          simp only [start, stop]
          omega
        rw [if_neg (by omega)] at hb'
        rw [← hmarks.2, hmark] at hinsert
        simp only [hb', start, stop, hinsert]
        simp only [start, stop] at hA hold ⊢
        omega

end Commented

end SelectedText

end Medit
