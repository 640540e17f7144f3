import Medit.TextBuffer.BlockComments

/-!
# Taking comments off

When `moo_edit_uncomment_selection` takes back what `moo_edit_comment_selection` did, and when it
takes off nothing but comment strings.

## Main definitions

* `SelectedText.Opens`, `SelectedText.Closes` — the strings that belong to a selection.
* `SelectedText.CommentsRight` — the two commands as they should be.
* `SelectedText.Meets` — on what texts they are.

## Main results

* `SelectedText.blockUncomment_uncomments` — what `block_uncomment` does.
* `SelectedText.comments_right_iff` — when the two commands are right.
-/

namespace Medit

open Paragraphs CharLines Leftmost

namespace SelectedText

variable {b : SelectedText} {S P N Q : List Sym} {str commentStart commentEnd : List Char}
  {start stop limit q r : ℕ}

/-! ## What belongs to a selection -/

/-- The string in front of the block: the first one of the selection, or else the last one in front
of it, on the line where it stops. -/
def Opens (S : List Sym) (commentStart : List Char) (start stop q : ℕ) : Prop :=
  IsNext S start commentStart stop q ∨
    (∀ j, ¬ IsNext S start commentStart stop j) ∧
      IsPrevious S start commentStart (lineStart S stop) q

/-- The string behind the block: the last one of the selection behind `limit`, or else the next one
on its line. -/
def Closes (S : List Sym) (commentEnd : List Char) (stop limit r : ℕ) : Prop :=
  IsPrevious S stop commentEnd limit r ∨
    (∀ j, ¬ IsPrevious S stop commentEnd limit j) ∧
      IsNext S stop commentEnd (lineEnd S stop) r

theorem or_eq_some_iff_opens (hne : str ≠ []) :
    (searchForward S start str stop).or (searchBackward S start str (lineStart S stop)) =
        some (q, r) ↔ Opens S str start stop q ∧ r = q + str.length := by
  rw [Option.or_eq_some_iff, searchForward_eq_some hne, searchForward_eq_none hne,
    searchBackward_eq_some hne, Opens]
  tauto

theorem or_eq_some_iff_closes (hne : str ≠ []) :
    (searchBackward S stop str limit).or (searchForward S stop str (lineEnd S stop)) =
        some (q, r) ↔ Closes S str stop limit q ∧ r = q + str.length := by
  rw [Option.or_eq_some_iff, searchBackward_eq_some hne, searchBackward_eq_none hne,
    searchForward_eq_some hne, Closes]
  tauto

/-- The text without both strings. -/
def withoutBlock (commentStart commentEnd : List Char) (q r : ℕ) (b : SelectedText) :
    SelectedText :=
  (b.deleteText q (q + commentStart.length)).deleteText
    (markAfterDelete q (q + commentStart.length) r)
    (markAfterDelete q (q + commentStart.length) (r + commentEnd.length))

/-- What `block_uncomment` does: nothing, or it takes two strings off, or it fails. -/
inductive Uncomments (commentStart commentEnd : List Char) (start stop : ℕ) (b : SelectedText) :
    Option SelectedText → Prop
  | unopened (h : ∀ q, ¬ Opens b.syms commentStart start stop q) :
    Uncomments commentStart commentEnd start stop b (some b)
  | unclosed {q : ℕ} (hq : Opens b.syms commentStart start stop q)
    (h : ∀ r, ¬ Closes b.syms commentEnd stop (q + commentStart.length) r) :
    Uncomments commentStart commentEnd start stop b (some b)
  | block {q r : ℕ} (hq : Opens b.syms commentStart start stop q)
    (hr : Closes b.syms commentEnd stop (q + commentStart.length) r)
    (hlt : q + commentStart.length < r) :
    Uncomments commentStart commentEnd start stop b
      (some (withoutBlock commentStart commentEnd q r b))
  | fails {q r : ℕ} (hq : Opens b.syms commentStart start stop q)
    (hr : Closes b.syms commentEnd stop (q + commentStart.length) r)
    (hle : r ≤ q + commentStart.length) :
    Uncomments commentStart commentEnd start stop b none

theorem blockUncomment_uncomments (hstart : commentStart ≠ []) (hend : commentEnd ≠ [])
    (start stop : ℕ) (b : SelectedText) :
    Uncomments commentStart commentEnd start (blockStop b.syms start stop) b
      (blockUncomment commentStart commentEnd start stop b) := by
  rw [blockUncomment, if_neg (by simp [hstart, hend])]
  dsimp only
  generalize blockStop b.syms start stop = stop
  have hopens (q r : ℕ) : (searchForward b.syms start commentStart stop).or
      (searchBackward b.syms start commentStart (lineStart b.syms stop)) = some (q, r) ↔
        Opens b.syms commentStart start stop q ∧ r = q + commentStart.length :=
    or_eq_some_iff_opens hstart
  cases hfound : (searchForward b.syms start commentStart stop).or
      (searchBackward b.syms start commentStart (lineStart b.syms stop)) with
  | none =>
    refine .unopened fun q hq => ?_
    rw [(hopens q _).2 ⟨hq, rfl⟩] at hfound
    cases hfound
  | some found =>
    obtain ⟨q, q'⟩ := found
    obtain ⟨hq, rfl⟩ := (hopens q q').1 hfound
    have hcloses (r r' : ℕ) :
        (searchBackward b.syms stop commentEnd (q + commentStart.length)).or
          (searchForward b.syms stop commentEnd (lineEnd b.syms stop)) = some (r, r') ↔
        Closes b.syms commentEnd stop (q + commentStart.length) r ∧
          r' = r + commentEnd.length :=
      or_eq_some_iff_closes hend
    dsimp only
    cases hfound' : (searchBackward b.syms stop commentEnd (q + commentStart.length)).or
        (searchForward b.syms stop commentEnd (lineEnd b.syms stop)) with
    | none =>
      refine .unclosed hq fun r hr => ?_
      rw [(hcloses r _).2 ⟨hr, rfl⟩] at hfound'
      cases hfound'
    | some found' =>
      obtain ⟨r, r'⟩ := found'
      obtain ⟨hr, rfl⟩ := (hcloses r r').1 hfound'
      dsimp only
      split
      · next hlt => exact .block hq hr hlt
      · next hle => exact .fails hq hr (by omega)

theorem IsNext.unique (h : IsNext S start str limit q) (h' : IsNext S start str limit r) : q = r :=
  Nat.le_antisymm (h.first r h'.le h'.occurs) (h'.first q h.le h.occurs)

theorem IsPrevious.unique (h : IsPrevious S start str limit q)
    (h' : IsPrevious S start str limit r) : q = r :=
  Nat.le_antisymm (h'.last q h.occurs h.stop) (h.last r h'.occurs h'.stop)

theorem Opens.unique (h : Opens S str start stop q) (h' : Opens S str start stop r) : q = r := by
  rcases h with h | ⟨hnot, h⟩
  · rcases h' with h' | ⟨hnot', -⟩
    · exact h.unique h'
    · exact absurd h (hnot' q)
  · rcases h' with h' | ⟨-, h'⟩
    · exact absurd h' (hnot r)
    · exact h.unique h'

theorem Closes.unique (h : Closes S str stop limit q) (h' : Closes S str stop limit r) : q = r := by
  rcases h with h | ⟨hnot, h⟩
  · rcases h' with h' | ⟨hnot', -⟩
    · exact h.unique h'
    · exact absurd h (hnot' q)
  · rcases h' with h' | ⟨-, h'⟩
    · exact absurd h' (hnot r)
    · exact h.unique h'

/-- A block between its two strings, and what is left. -/
theorem exists_block_of_occursAt (hend : commentEnd ≠ [])
    (hq : OccursAt S commentStart q) (hr : OccursAt S commentEnd r)
    (hle : q + commentStart.length ≤ r) : ∃ A M B,
      S = A ++ (commentStart.map ofChar ++ (M ++ (commentEnd.map ofChar ++ B))) ∧ A.length = q ∧
        q + commentStart.length + M.length = r := by
  have hlen := hr.le hend
  obtain ⟨R, hR⟩ := hq
  obtain ⟨B, hB⟩ := hr
  have hdrop : S.drop (q + commentStart.length) = R := by
    rw [← List.drop_drop, ← hR, List.drop_left' (by simp)]
  have hsplit : R = R.take (r - (q + commentStart.length)) ++ S.drop r := by
    conv_lhs => rw [← List.take_append_drop (r - (q + commentStart.length)) R]
    rw [← hdrop, List.drop_drop, Nat.add_sub_cancel' hle]
  refine ⟨S.take q, R.take (r - (q + commentStart.length)), B, ?_, ?_, ?_⟩
  · rw [hB, ← hsplit, hR, List.take_append_drop]
  · rw [List.length_take]
    omega
  · rw [← hdrop, List.length_take, List.length_drop]
    omega

theorem withoutBlock_syms {A M B : List Sym} (hb : b.syms = A ++ (commentStart.map ofChar ++
    (M ++ (commentEnd.map ofChar ++ B)))) (hM : M ≠ []) :
    (withoutBlock commentStart commentEnd A.length (A.length + commentStart.length + M.length)
      b).syms = A ++ (M ++ B) := by
  have hpos := List.length_pos_iff.2 hM
  have hmark (n : ℕ) : markAfterDelete A.length (A.length + commentStart.length)
      (A.length + commentStart.length + M.length + n) = A.length + M.length + n := by
    unfold markAfterDelete
    split_ifs <;> omega
  have hfirst : delete b.syms A.length (A.length + commentStart.length) =
      A ++ M ++ (commentEnd.map ofChar ++ B) := by
    rw [delete, Nat.min_eq_left (by omega), Nat.max_eq_right (by omega), hb, List.take_left,
      List.drop_append, List.drop_of_length_le (Nat.le_add_right ..), Nat.add_sub_cancel_left,
      List.nil_append, List.drop_left' (by simp), List.append_assoc]
  have hmark0 := hmark 0
  rw [Nat.add_zero, Nat.add_zero] at hmark0
  unfold withoutBlock
  simp only [deleteText, hmark, hmark0, hfirst]
  rw [delete, Nat.min_eq_left (by omega), Nat.max_eq_right (by omega), ← List.length_append,
    List.take_left, List.drop_append, List.drop_of_length_le (Nat.le_add_right ..),
    Nat.add_sub_cancel_left, List.nil_append, List.drop_left' (by simp), List.append_assoc]

/-! ## Occurrences around the block -/

section Around

variable {A T B X R : List Sym} {j : ℕ}

theorem occursAt_append (X R : List Sym) (str : List Char) :
    OccursAt (X ++ (str.map ofChar ++ R)) str X.length := by
  rw [OccursAt, List.drop_left]
  exact List.prefix_append ..

/-- An occurrence does not reach into a text that shares no character with it. -/
theorem OccursAt.apart (h : OccursAt (X ++ (T ++ R)) str j) (hne : str ≠ []) (hT : T ≠ [])
    (hshare : ∀ c ∈ text T, c ∉ str) : j + str.length ≤ X.length ∨ X.length + T.length ≤ j := by
  by_contra hnot
  have hpos := List.length_pos_iff.2 hT
  have hpos' := List.length_pos_iff.2 hne
  obtain ⟨i, hi, hp⟩ : ∃ i, i < str.length ∧ max j X.length = j + i :=
    ⟨max j X.length - j, by omega, by omega⟩
  obtain ⟨k, hk, hp'⟩ : ∃ k, k < T.length ∧ max j X.length = X.length + k :=
    ⟨max j X.length - X.length, by omega, by omega⟩
  have hchar := h.getElem? hi
  rw [← hp, hp', List.getElem?_append_right (Nat.le_add_right ..), Nat.add_sub_cancel_left,
    List.getElem?_append_left hk, List.getElem?_eq_getElem hk, Option.some.injEq] at hchar
  refine hshare str[i] ?_ (List.getElem_mem hi)
  refine List.mem_flatMap.2 ⟨T[k], List.getElem_mem hk, ?_⟩
  rw [hchar, chars_ofChar]
  exact List.mem_singleton_self _

/-- What occurs within a string that stands in a text is a part of that string. -/
theorem OccursAt.isInfix {str' : List Char} (h : OccursAt (X ++ (str'.map ofChar ++ R)) str j)
    (hle : X.length ≤ j) (hlen : j + str.length ≤ X.length + str'.length) : str <:+: str' := by
  obtain ⟨i, rfl⟩ := Nat.exists_eq_add_of_le hle
  rw [OccursAt, ← List.drop_drop, List.drop_left,
    List.drop_append_of_le_length (by rw [List.length_map]; omega), ← List.map_drop] at h
  have hpre := List.prefix_of_prefix_length_le h (List.prefix_append ..) (by simp; omega)
  obtain ⟨rest, hrest⟩ := hpre
  have htext := congrArg text hrest
  rw [text_append, text_map_ofChar, text_map_ofChar] at htext
  exact (List.IsPrefix.isInfix ⟨_, htext⟩).trans (List.drop_suffix i str').isInfix

theorem exists_occursAt_of_isInfix {str' : List Char} (h : str <:+: str') (X R : List Sym) :
    ∃ j, X.length ≤ j ∧ j + str.length ≤ X.length + str'.length ∧
      OccursAt (X ++ (str'.map ofChar ++ R)) str j := by
  obtain ⟨s, t, rfl⟩ := h
  refine ⟨X.length + s.length, Nat.le_add_right .., by simp; omega, ?_⟩
  have hX : X ++ ((s ++ str ++ t).map ofChar ++ R) =
      (X ++ s.map ofChar) ++ (str.map ofChar ++ (t.map ofChar ++ R)) := by simp
  have hlen : X.length + s.length = (X ++ s.map ofChar).length := by simp
  rw [hX, hlen]
  exact occursAt_append ..

/-- At the end of a line nothing more is found on it. -/
theorem not_isNext_of_eolFirst (hB : EolFirst B) (hne : str ≠ [])
    (hs : ∀ c ∈ str, isDelim c = false) (q : ℕ) : ¬ IsNext (X ++ B) X.length str X.length q := by
  rintro ⟨hle, hoccurs, -, hlimit⟩
  have hpos := List.length_pos_iff.2 hne
  have hlen := hoccurs.le hne
  rcases hlimit with hlimit | hlimit
  · omega
  · obtain rfl : q = X.length := by omega
    rw [OccursAt, List.drop_left] at hoccurs
    obtain ⟨c, cs, rfl⟩ := List.exists_cons_of_ne_nil hne
    rcases hB with rfl | ⟨d, B, rfl⟩
    · simp at hoccurs
    · obtain ⟨rest, hrest⟩ := hoccurs
      have hhead := (List.cons.inj hrest).1
      have heol := isEol_ofChar (hs c (by simp))
      rw [hhead] at heol
      cases heol

end Around

section Restored

variable {A T B : List Sym}
  (hS : S = A ++ (commentStart.map ofChar ++ (T ++ (commentEnd.map ofChar ++ B))))
include hS

theorem occursAt_start : OccursAt S commentStart A.length := hS ▸ occursAt_append ..

theorem occursAt_stop :
    OccursAt S commentEnd (A.length + commentStart.length + T.length) := by
  have heq : S = (A ++ (commentStart.map ofChar ++ T)) ++ (commentEnd.map ofChar ++ B) := by
    rw [hS]
    simp
  have hlen : A.length + commentStart.length + T.length =
      (A ++ (commentStart.map ofChar ++ T)).length := by
    simp
    omega
  rw [hlen, heq]
  exact occursAt_append ..

/-- The string in front of the block, from in front of it. -/
theorem isNext_start (hlimit : A.length + commentStart.length ≤ limit + 1) :
    IsNext S A.length commentStart limit A.length :=
  ⟨le_rfl, occursAt_start hS, fun _ hj _ => hj, Or.inr hlimit⟩

/-- The string behind the block, from behind it. -/
theorem isPrevious_stop :
    IsPrevious S (A.length + commentStart.length + T.length + commentEnd.length) commentEnd
      (A.length + commentStart.length) (A.length + commentStart.length + T.length) :=
  ⟨Nat.le_add_right .., occursAt_stop hS, le_rfl, fun _ _ hj => by omega⟩

end Restored

/-! ## What comes back -/

section Commands

variable {lang : MooLang} {A T B : List Sym}

theorem uncommentSelection_uncomments (hl : BlockLang lang commentStart commentEnd)
    (b : SelectedText) : ∃ b₁ : SelectedText, b₁.syms = b.syms ∧
      Uncomments commentStart commentEnd b.start (blockStop b.syms b.start b.stop) b₁
        (uncommentSelection lang b) := by
  refine ⟨{ b with userActions := b.userActions + 1 }, rfl, ?_⟩
  simp only [uncommentSelection, hasComments, hl.line, hl.start, hl.stop, Option.isSome_none,
    Option.isSome_some, Bool.and_self, Bool.or_true, Bool.not_true, Bool.false_eq_true, if_false,
    Option.getD_some]
  exact blockUncomment_uncomments hl.start_ne hl.stop_ne b.start b.stop
    { b with userActions := b.userActions + 1 }

/-- The text is restored where the two strings are found. -/
theorem restored_of_opens (hl : BlockLang lang commentStart commentEnd) (h : BlockAt b A T B)
    (hT : T ≠ []) {c : SelectedText} (hc : commentSelection lang b = c) {stop : ℕ}
    (hstop : blockStop c.syms c.start c.stop = stop)
    (hopens : Opens c.syms commentStart c.start stop A.length)
    (hcloses : Closes c.syms commentEnd stop (A.length + commentStart.length)
      (A.length + commentStart.length + T.length)) :
    ∃ b', uncommentSelection lang c = some b' ∧ b'.syms = b.syms := by
  obtain ⟨hS, -, -⟩ := commentSelection_block hl h
  obtain ⟨b₁, hb₁, huncomments⟩ := uncommentSelection_uncomments hl c
  have hpos := List.length_pos_iff.2 hT
  rw [hstop] at huncomments
  rw [hc, ← hb₁] at hS
  rw [← hb₁] at hopens hcloses
  generalize uncommentSelection lang c = result at huncomments
  cases huncomments with
  | unopened hnot => exact absurd hopens (hnot _)
  | unclosed hq hnot =>
    obtain rfl := hq.unique hopens
    exact absurd hcloses (hnot _)
  | block hq hr hlt =>
    obtain rfl := hq.unique hopens
    obtain rfl := hr.unique hcloses
    exact ⟨_, rfl, by rw [withoutBlock_syms hS hT, h.eq]⟩
  | fails hq hr hle =>
    obtain rfl := hq.unique hopens
    obtain rfl := hr.unique hcloses
    omega

/-- The strings around a selection, where both commands have it. -/
theorem selection_marks (hl : BlockLang lang commentStart commentEnd) (h : BlockAt b A T B)
    (hsel : b.start ≠ b.stop) :
    let c := commentSelection lang b
    let stop := A.length + commentStart.length + T.length + commentEnd.length
    c.start = A.length ∧ blockStop c.syms c.start c.stop = stop ∧
      Opens c.syms commentStart c.start stop A.length ∧
      Closes c.syms commentEnd stop (A.length + commentStart.length)
        (A.length + commentStart.length + T.length) := by
  intro c stop
  obtain ⟨hS, -, hmarks⟩ := commentSelection_block hl h
  obtain ⟨hstart, hcstop⟩ := hmarks hsel
  obtain ⟨hA, hcases⟩ := h.selection hsel
  have hpos := List.length_pos_iff.2 hl.start_ne
  have hpos' := List.length_pos_iff.2 hl.stop_ne
  refine ⟨hstart, ?_, Or.inl ?_, Or.inl (isPrevious_stop hS)⟩
  · have hlen : (A ++ (commentStart.map ofChar ++ (T ++ commentEnd.map ofChar))).length = stop := by
      simp [stop]
      omega
    have hc : c.syms = A ++ (commentStart.map ofChar ++ (T ++ commentEnd.map ofChar)) ++ B := by
      rw [hS]
      simp
    have hne : c.start ≠ c.stop := by
      rw [hstart, hcstop]
      omega
    rcases hcases with ⟨hstop, -⟩ | ⟨hstop, heol, hB⟩
    · -- the selection ends behind the string, where no line starts
      have hcs : c.stop = stop := by
        rw [hcstop, hstop]
        simp only [stop]
        omega
      have hnot : ¬ startsLine c.syms c.stop := by
        obtain ⟨n, hn⟩ := Nat.exists_eq_succ_of_ne_zero hpos'.ne'
        have hlast : c.stop = A.length + commentStart.length + T.length + n + 1 := by
          rw [hcs]
          simp only [stop]
          omega
        have hn' : n < commentEnd.length := by omega
        have hget : c.syms[A.length + commentStart.length + T.length + n]? =
            some (ofChar commentEnd[n]) := by
          have hS' : c.syms = (A ++ (commentStart.map ofChar ++ T)) ++
              (commentEnd.map ofChar ++ B) := by
            rw [hS]
            simp
          have hlen' : (A ++ (commentStart.map ofChar ++ T)).length =
              A.length + commentStart.length + T.length := by
            simp
            omega
          rw [hS', List.getElem?_append_right (by omega), hlen', Nat.add_sub_cancel_left,
            List.getElem?_append_left (by simpa using hn')]
          simp [hn']
        rw [hlast, startsLine_succ, hget, Option.any_some,
          isEol_ofChar (hl.stop_isDelim _ (List.getElem_mem hn'))]
        simp
      rw [blockStop, if_neg fun hcon => hnot hcon.2, hcs]
    · have hcs : c.stop = stop + 1 := by
        rw [hcstop, hstop]
        simp only [stop]
        omega
      obtain ⟨d, B', rfl⟩ := heol.resolve_left hB
      have hget : c.syms[stop]? = some (.eol d) := by
        rw [hc, List.getElem?_append_right hlen.le, hlen, Nat.sub_self, List.getElem?_cons_zero]
      have hstarts : startsLine c.syms c.stop := by
        rw [hcs, startsLine_succ, hget]
        rfl
      rw [blockStop, if_pos ⟨hne, hstarts⟩, hcs, lineEnd_backwardLine hget]
  · rw [hstart]
    refine isNext_start hS ?_
    simp only [stop]
    omega

/-- The line of a cursor with both strings. -/
theorem lineAt_commented (hl : BlockLang lang commentStart commentEnd) (h : BlockAt b A T B)
    (hsel : b.start = b.stop) :
    LineAt (commentSelection lang b).syms A
      (commentStart.map ofChar ++ (T ++ commentEnd.map ofChar)) B := by
  obtain ⟨hS, -, -⟩ := commentSelection_block hl h
  obtain ⟨hat, -, -⟩ := h.cursor hsel
  refine ⟨by rw [hS]; simp, hat.whole, ?_, hat.eolFirst⟩
  simp only [List.forall_mem_append]
  exact ⟨isEol_of_mem_map hl.start_isDelim, hat.line, isEol_of_mem_map hl.stop_isDelim⟩

/-- A cursor within its line finds both strings. -/
theorem cursor_within (hl : BlockLang lang commentStart commentEnd) (h : BlockAt b A T B)
    (hsel : b.start = b.stop) (hlt : b.start < A.length + T.length)
    (hshare : ∀ c ∈ text T, c ∉ commentStart ∧ c ∉ commentEnd) :
    ∃ b', uncommentSelection lang (commentSelection lang b) = some b' ∧ b'.syms = b.syms := by
  obtain ⟨hS, hmarks, -⟩ := commentSelection_block hl h
  obtain ⟨hbounds, hstart⟩ := hmarks hsel
  obtain ⟨-, hge, -⟩ := h.cursor hsel
  have hat := lineAt_commented hl h hsel
  obtain ⟨k, hk⟩ := Nat.exists_eq_add_of_le hge
  have hT : T ≠ [] := by
    rintro rfl
    simp at hlt
    omega
  have hpos := List.length_pos_iff.2 hl.start_ne
  have hpos' := List.length_pos_iff.2 hl.stop_ne
  have hkT : k < T.length := by omega
  generalize hc : commentSelection lang b = c at hS hbounds hstart hat
  have hcstart : c.start = A.length + (commentStart.length + k) := by
    rw [hstart, if_neg (by omega)]
    omega
  have hline : lineStart c.syms c.start = A.length := by
    rw [hcstart, lineStart_eq hat (by simp; omega)]
  have hend : lineEnd c.syms c.start =
      A.length + commentStart.length + T.length + commentEnd.length := by
    rw [hcstart, lineEnd_eq hat (by simp; omega)]
    simp
    omega
  have hS' : c.syms = (A ++ commentStart.map ofChar) ++ (T ++ (commentEnd.map ofChar ++ B)) := by
    rw [hS]
    simp
  have hlen : (A ++ commentStart.map ofChar).length = A.length + commentStart.length := by simp
  have hapart {str : List Char} (hne : str ≠ []) (hnot : ∀ x ∈ text T, x ∉ str) {j : ℕ}
      (hj : OccursAt c.syms str j) : j + str.length ≤ A.length + commentStart.length ∨
        A.length + commentStart.length + T.length ≤ j := by
    rw [hS'] at hj
    have := hj.apart hne hT hnot
    rwa [hlen] at this
  have hstop : blockStop c.syms c.start c.stop = c.start := by
    rw [blockStop, if_neg fun hcon => hcon.1 hbounds, ← hbounds]
  refine restored_of_opens hl h hT hc hstop (Or.inr ⟨fun j hj => ?_, ?_⟩)
    (Or.inr ⟨fun j hj => ?_, ?_⟩)
  · have hj' := hapart hl.start_ne (fun x hx => (hshare x hx).1) hj.occurs
    have hle := hj.le
    have hclen : c.start ≠ c.syms.length := by
      rw [hS, hcstart]
      simp
      omega
    have := hj.limit.resolve_left hclen
    omega
  · refine ⟨hline.le, occursAt_start hS, by omega, fun j hj hle => ?_⟩
    have := hapart hl.start_ne (fun x hx => (hshare x hx).1) hj
    omega
  · have := hapart hl.stop_ne (fun x hx => (hshare x hx).2) hj.occurs
    have hle := hj.le
    have hstop := hj.stop
    omega
  · refine ⟨by omega, occursAt_stop hS, fun j hj hoccurs => ?_, Or.inr (by omega)⟩
    have := hapart hl.stop_ne (fun x hx => (hshare x hx).2) hoccurs
    omega

/-- A cursor at the end of its line, after it has been commented out. -/
theorem cursor_at_end_marks (hl : BlockLang lang commentStart commentEnd) (h : BlockAt b A T B)
    (hsel : b.start = b.stop) (heq : b.start = A.length + T.length) :
    let c := commentSelection lang b
    let stop := A.length + commentStart.length + T.length + commentEnd.length
    c.start = stop ∧ blockStop c.syms c.start c.stop = stop ∧ lineStart c.syms stop = A.length ∧
      lineEnd c.syms stop = stop ∧ ∀ (str : List Char) (q : ℕ), str ≠ [] →
        (∀ x ∈ str, isDelim x = false) → ¬ IsNext c.syms stop str stop q := by
  intro c stop
  obtain ⟨hS, hmarks, -⟩ := commentSelection_block hl h
  obtain ⟨hbounds, hstart⟩ := hmarks hsel
  have hat := lineAt_commented hl h hsel
  have hlen : (commentStart.map ofChar ++ (T ++ commentEnd.map ofChar)).length =
      commentStart.length + T.length + commentEnd.length := by
    simp
    omega
  have hcstart : c.start = stop := by
    change (commentSelection lang b).start = stop
    rw [hstart, if_pos heq]
    simp only [stop]
    omega
  have hstop : stop = A.length +
      (commentStart.map ofChar ++ (T ++ commentEnd.map ofChar)).length := by
    simp only [stop]
    omega
  refine ⟨hcstart, ?_, ?_, ?_, fun str q hne hs => ?_⟩
  · rw [blockStop, if_neg fun hcon => hcon.1 hbounds, ← hbounds]
    exact hcstart
  · rw [hstop]
    exact lineStart_eq hat le_rfl
  · rw [hstop]
    exact lineEnd_eq hat le_rfl
  · have hc : c.syms = A ++ (commentStart.map ofChar ++ (T ++ commentEnd.map ofChar)) ++ B := by
      change (commentSelection lang b).syms = _
      rw [hat.eq]
      simp
    rw [hc, hstop, ← List.length_append]
    exact not_isNext_of_eolFirst hat.eolFirst hne hs q

/-- At the end of its line a cursor finds the strings between which its line is, unless the string
in front can be found in the one behind. -/
theorem cursor_at_end (hl : BlockLang lang commentStart commentEnd) (h : BlockAt b A T B)
    (hsel : b.start = b.stop) (heq : b.start = A.length + T.length) (hT : T ≠ [])
    (hshare : ∀ c ∈ text T, c ∉ commentStart ∧ c ∉ commentEnd)
    (hsub : ¬ commentStart <:+: commentEnd) :
    ∃ b', uncommentSelection lang (commentSelection lang b) = some b' ∧ b'.syms = b.syms := by
  obtain ⟨hS, -, -⟩ := commentSelection_block hl h
  obtain ⟨hstart, hstop, hline, -, hnext⟩ := cursor_at_end_marks hl h hsel heq
  generalize hc : commentSelection lang b = c at hS hstart hstop hline hnext
  refine restored_of_opens hl h hT hc hstop ?_ (Or.inl (isPrevious_stop hS))
  rw [hstart]
  refine Or.inr ⟨fun q => hnext _ q hl.start_ne hl.start_isDelim, hline.le, occursAt_start hS,
    by omega, fun j hj hle => ?_⟩
  have hS' : c.syms = (A ++ commentStart.map ofChar) ++ (T ++ (commentEnd.map ofChar ++ B)) := by
    rw [hS]
    simp
  have hj' := hj
  rw [hS'] at hj'
  have hapart := hj'.apart hl.start_ne hT fun x hx => (hshare x hx).1
  rw [List.length_append, List.length_map] at hapart
  rcases hapart with hfront | hbehind
  · omega
  · -- it would be in the string behind the block
    have hS'' : c.syms = (A ++ (commentStart.map ofChar ++ T)) ++ (commentEnd.map ofChar ++ B) := by
      rw [hS]
      simp
    rw [hS''] at hj
    exact absurd (hj.isInfix (by simp; omega) (by simp; omega)) hsub

/-- At the end of an empty line, or where the string in front is found in the one behind, nothing is
restored. -/
theorem cursor_not_restored (hl : BlockLang lang commentStart commentEnd) (h : BlockAt b A T B)
    (hsel : b.start = b.stop) (heq : b.start = A.length + T.length)
    (hnot : T = [] ∨ commentStart <:+: commentEnd) :
    ¬ ∃ b', uncommentSelection lang (commentSelection lang b) = some b' ∧
      text b'.syms = text b.syms := by
  obtain ⟨hS, -, -⟩ := commentSelection_block hl h
  obtain ⟨hstart, hstop, -, hend, hnext⟩ := cursor_at_end_marks hl h hsel heq
  generalize commentSelection lang b = c at hS hstart hstop hend hnext
  obtain ⟨b₁, hb₁, huncomments⟩ := uncommentSelection_uncomments hl c
  rw [hstop, hstart] at huncomments
  rw [← hb₁] at hend hnext hS
  have hpos := List.length_pos_iff.2 hl.start_ne
  -- the strings that are found are not one behind the other
  have hle {q r : ℕ} (hq : Opens b₁.syms commentStart
        (A.length + commentStart.length + T.length + commentEnd.length)
        (A.length + commentStart.length + T.length + commentEnd.length) q)
      (hr : Closes b₁.syms commentEnd
        (A.length + commentStart.length + T.length + commentEnd.length)
        (q + commentStart.length) r) : r ≤ q + commentStart.length := by
    have hq := (hq.resolve_left (hnext _ _ hl.start_ne hl.start_isDelim)).2
    rcases hr with hr | ⟨-, hr⟩
    · have hrstop := hr.stop
      rcases hnot with rfl | hsub
      · have hqA := hq.last _ (occursAt_start hS) (by omega)
        rw [List.length_nil] at hrstop
        omega
      · have hS' : b₁.syms = (A ++ (commentStart.map ofChar ++ T)) ++
            (commentEnd.map ofChar ++ B) := by
          rw [hS]
          simp
        obtain ⟨j, hj, hjle, hoccurs⟩ := exists_occursAt_of_isInfix hsub
          (A ++ (commentStart.map ofChar ++ T)) B
        simp only [List.length_append, List.length_map] at hj hjle
        have hqj := hq.last j (hS' ▸ hoccurs) (by omega)
        have := hr.le
        omega
    · rw [hend] at hr
      exact absurd hr (hnext _ _ hl.stop_ne hl.stop_isDelim)
  have hchanged : text b₁.syms ≠ text b.syms := by
    intro htext
    have hlen := congrArg List.length htext
    rw [hS, h.eq] at hlen
    simp only [text_append, text_map_ofChar, List.length_append] at hlen
    omega
  rintro ⟨b', hb', htext⟩
  rw [hb'] at huncomments
  cases huncomments with
  | unopened => exact hchanged htext
  | unclosed => exact hchanged htext
  | block hq hr hlt =>
    have := hle hq hr
    omega

/-- An empty selection that is not a cursor fails. -/
theorem selection_fails (hl : BlockLang lang commentStart commentEnd) (h : BlockAt b A [] B)
    (hsel : b.start ≠ b.stop) : uncommentSelection lang (commentSelection lang b) = none := by
  obtain ⟨hstart, hstop, hopens, hcloses⟩ := selection_marks hl h hsel
  generalize commentSelection lang b = c at hstart hstop hopens hcloses
  obtain ⟨b₁, hb₁, huncomments⟩ := uncommentSelection_uncomments hl c
  rw [hstop] at huncomments
  rw [← hb₁] at hopens hcloses
  generalize uncommentSelection lang c = result at huncomments
  cases huncomments with
  | unopened hnot => exact absurd hopens (hnot _)
  | unclosed hq hnot =>
    obtain rfl := hq.unique hopens
    exact absurd hcloses (hnot _)
  | block hq hr hlt =>
    obtain rfl := hq.unique hopens
    obtain rfl := hr.unique hcloses
    simp at hlt
  | fails => rfl

end Commands

/-! ## Both commands -/

/-- What a language may have as a comment string. -/
def IsCommentString (str : List Char) : Prop := str ≠ [] ∧ ∀ c ∈ str, isDelim c = false

/-- The comment strings of a language are not empty and have no ends of lines in them. -/
structure IsLang (lang : MooLang) : Prop where
  line : ∀ str ∈ lang.lineComment, IsCommentString str
  start : ∀ str ∈ lang.blockCommentStart, IsCommentString str
  stop : ∀ str ∈ lang.blockCommentEnd, IsCommentString str

/-- What is commented out as a block. -/
def commentedText (b : SelectedText) : List Sym :=
  (b.syms.take (blockRange b.syms b.start b.stop).2).drop (blockRange b.syms b.start b.stop).1

/-- Nothing is taken off, or whole comment strings on the lines of the selection, each with at most
one space behind it in the line form. -/
def TakesOff (lang : MooLang) (b b' : SelectedText) : Prop :=
  match lang.lineComment with
  | some str => b.Becomes b' (mapLines (uncommented str) (line b.syms b.start)
      (lastCommentLine b.syms b.start b.stop) (contents b.syms))
  | none => b'.syms = b.syms ∨ ∃ commentStart ∈ lang.blockCommentStart,
      ∃ commentEnd ∈ lang.blockCommentEnd, ∃ A M B,
        b.syms = A ++ (commentStart.map ofChar ++ (M ++ (commentEnd.map ofChar ++ B))) ∧
        b'.syms = A ++ (M ++ B) ∧ lineStart b.syms b.start ≤ A.length ∧
        A.length + commentStart.length + M.length + commentEnd.length ≤
          lineEnd b.syms (blockStop b.syms b.start b.stop)

/-- The strings of the block form. -/
def HasBlock (lang : MooLang) (commentStart commentEnd : List Char) : Prop :=
  lang.lineComment = none ∧ lang.blockCommentStart = some commentStart ∧
    lang.blockCommentEnd = some commentEnd

/-- What is commented out comes back, and nothing but comment strings is taken off. -/
structure CommentsRight (lang : MooLang) (b : SelectedText) : Prop where
  restores : (∀ commentStart commentEnd, HasBlock lang commentStart commentEnd →
      ∀ c ∈ text b.commentedText, c ∉ commentStart ∧ c ∉ commentEnd) →
    ∃ b', uncommentSelection lang (commentSelection lang b) = some b' ∧ text b'.syms = text b.syms
  takesOff : ∃ b', uncommentSelection lang b = some b' ∧ TakesOff lang b b'

/-- Something is commented out, a cursor at the end of its line does not find the first string in
the second one, and the strings that belong to the selection are apart. -/
structure Meets (lang : MooLang) (b : SelectedText) : Prop where
  restored : ∀ commentStart commentEnd, HasBlock lang commentStart commentEnd →
    (∀ c ∈ text b.commentedText, c ∉ commentStart ∧ c ∉ commentEnd) → b.commentedText ≠ [] ∧
      ¬ (b.start = b.stop ∧ b.start = lineEnd b.syms b.start ∧ commentStart <:+: commentEnd)
  apart : ∀ commentStart commentEnd, HasBlock lang commentStart commentEnd → ∀ q r,
    Opens b.syms commentStart b.start (blockStop b.syms b.start b.stop) q →
    Closes b.syms commentEnd (blockStop b.syms b.start b.stop) (q + commentStart.length) r →
    q + commentStart.length < r

section Right

variable {lang : MooLang} {A T B : List Sym}

theorem BlockAt.commentedText (h : BlockAt b A T B) : b.commentedText = T := by
  rw [SelectedText.commentedText, h.range, h.eq, List.take_length_add_append, List.take_left,
    List.drop_left]

theorem BlockAt.lineEnd (h : BlockAt b A T B) (hsel : b.start = b.stop) :
    lineEnd b.syms b.start = A.length + T.length := by
  obtain ⟨hat, hge, hle⟩ := h.cursor hsel
  obtain ⟨k, hk⟩ := Nat.exists_eq_add_of_le hge
  rw [hk, lineEnd_eq hat (by omega)]

theorem IsLang.blockLang (h : IsLang lang) (hblock : HasBlock lang commentStart commentEnd) :
    BlockLang lang commentStart commentEnd := by
  obtain ⟨hline, hstart, hend⟩ := hblock
  obtain ⟨hstart_ne, hstart_delim⟩ := h.start commentStart hstart
  obtain ⟨hend_ne, hend_delim⟩ := h.stop commentEnd hend
  exact ⟨hline, hstart, hend, hstart_ne, hend_ne, hstart_delim, hend_delim⟩

/-- When the block form restores a text. -/
theorem restored_iff (hl : BlockLang lang commentStart commentEnd) (h : BlockAt b A T B)
    (hshare : ∀ c ∈ text T, c ∉ commentStart ∧ c ∉ commentEnd) :
    (∃ b', uncommentSelection lang (commentSelection lang b) = some b' ∧
        text b'.syms = text b.syms) ↔
      T ≠ [] ∧ ¬ (b.start = b.stop ∧ b.start = A.length + T.length ∧
        commentStart <:+: commentEnd) := by
  have htext : (∃ b', uncommentSelection lang (commentSelection lang b) = some b' ∧
      b'.syms = b.syms) → ∃ b', uncommentSelection lang (commentSelection lang b) = some b' ∧
        text b'.syms = text b.syms := fun ⟨b', hb', hsyms⟩ => ⟨b', hb', by rw [hsyms]⟩
  by_cases hsel : b.start = b.stop
  · obtain ⟨-, hge, hle⟩ := h.cursor hsel
    rcases Nat.lt_or_ge b.start (A.length + T.length) with hlt | hge'
    · have hT : T ≠ [] := by
        rintro rfl
        simp at hlt
        omega
      exact iff_of_true (htext (cursor_within hl h hsel hlt hshare)) ⟨hT, fun hcon => by omega⟩
    · have heq : b.start = A.length + T.length := by omega
      by_cases hnot : T = [] ∨ commentStart <:+: commentEnd
      · refine iff_of_false (cursor_not_restored hl h hsel heq hnot) ?_
        rintro ⟨hT, hsub⟩
        exact hsub ⟨hsel, heq, hnot.resolve_left hT⟩
      · rw [not_or] at hnot
        exact iff_of_true (htext (cursor_at_end hl h hsel heq hnot.1 hshare hnot.2))
          ⟨hnot.1, fun hcon => hnot.2 hcon.2.2⟩
  · by_cases hT : T = []
    · subst hT
      refine iff_of_false ?_ fun hcon => hcon.1 rfl
      rw [selection_fails hl h hsel]
      simp
    · obtain ⟨-, hstop, hopens, hcloses⟩ := selection_marks hl h hsel
      exact iff_of_true (htext (restored_of_opens hl h hT rfl hstop hopens hcloses))
        ⟨hT, fun hcon => hsel hcon.1⟩

/-- Both strings are on the lines of the selection. -/
theorem opens_closes_bounds {stop : ℕ} (hle : start ≤ stop) (hstop : stop ≤ S.length)
    (hstart : commentStart ≠ []) (hend : commentEnd ≠ [])
    (hs : ∀ c ∈ commentEnd, isDelim c = false) (hq : Opens S commentStart start stop q)
    (hr : Closes S commentEnd stop limit r) :
    OccursAt S commentStart q ∧ OccursAt S commentEnd r ∧ lineStart S start ≤ q ∧
      r + commentEnd.length ≤ lineEnd S stop := by
  have hlineStart (i : ℕ) (hi : i ≤ S.length) : lineStart S i ≤ i := by
    obtain ⟨P, N, Q, hat, hge, hlt⟩ := exists_lineAt_of_le S hi
    obtain ⟨k, rfl⟩ := Nat.exists_eq_add_of_le hge
    rw [lineStart_eq hat (by omega)]
    omega
  obtain ⟨P, N, Q, hat, hge, hlt⟩ := exists_lineAt_of_le S hstop
  obtain ⟨k, rfl⟩ := Nat.exists_eq_add_of_le hge
  have hk : k ≤ N.length := by omega
  have hpos := List.length_pos_iff.2 hstart
  have hpos' := List.length_pos_iff.2 hend
  rw [Closes, lineEnd_eq hat hk] at hr
  rw [Opens, lineStart_eq hat hk] at hq
  rw [lineEnd_eq hat hk]
  refine ⟨?_, ?_, ?_, ?_⟩
  · rcases hq with hq | ⟨-, hq⟩
    · exact hq.occurs
    · exact hq.occurs
  · rcases hr with hr | ⟨-, hr⟩
    · exact hr.occurs
    · exact hr.occurs
  · rcases hq with hq | ⟨-, hq⟩
    · exact (hlineStart start (by omega)).trans hq.le
    · have hqle := hq.le
      have hqstop := hq.stop
      obtain ⟨k', rfl⟩ := Nat.exists_eq_add_of_le (by omega : P.length ≤ start)
      rw [lineStart_eq hat (by omega)]
      exact hqle
  · rcases hr with hr | ⟨-, hr⟩
    · have := hr.stop
      omega
    · have hlen := hr.occurs.le hend
      rcases hr.limit with hlimit | hlimit
      · omega
      · by_contra hgt
        -- it would reach over the end of the line
        have hget := hr.occurs.getElem? (i := commentEnd.length - 1) (by omega)
        rw [show r + (commentEnd.length - 1) = P.length + N.length by omega] at hget
        rw [hat.eq, ← List.append_assoc, ← List.length_append,
          List.getElem?_append_right le_rfl, Nat.sub_self] at hget
        rcases hat.eolFirst with rfl | ⟨d, Q, rfl⟩
        · simp at hget
        · have heol := isEol_ofChar (hs _ (List.getElem_mem (by omega : commentEnd.length - 1 <
            commentEnd.length)))
          rw [← Option.some.inj hget] at heol
          cases heol

theorem blockStop_bounds (hinsert : b.insert ≤ b.syms.length)
    (hbound : b.selectionBound ≤ b.syms.length) :
    b.start ≤ blockStop b.syms b.start b.stop ∧
      blockStop b.syms b.start b.stop ≤ b.syms.length := by
  obtain ⟨A, T, B, h⟩ := exists_blockAt hinsert hbound
  have hle : b.start ≤ b.stop := min_le_max
  have hstop : b.stop ≤ b.syms.length := max_le hinsert hbound
  by_cases hcon : b.start ≠ b.stop ∧ startsLine b.syms b.stop
  · have hrange := h.range
    rw [blockRange, if_neg hcon.1, if_pos hcon.2, Prod.mk.injEq] at hrange
    rw [blockStop, if_pos hcon, hrange.2, h.eq, hrange.1]
    simp
  · rw [blockStop, if_neg hcon]
    exact ⟨hle, hstop⟩

/-- The text is right when the strings of the selection are apart. -/
theorem takesOff_iff (hl : BlockLang lang commentStart commentEnd)
    (hinsert : b.insert ≤ b.syms.length) (hbound : b.selectionBound ≤ b.syms.length) :
    (∃ b', uncommentSelection lang b = some b' ∧ TakesOff lang b b') ↔
      ∀ q r, Opens b.syms commentStart b.start (blockStop b.syms b.start b.stop) q →
        Closes b.syms commentEnd (blockStop b.syms b.start b.stop) (q + commentStart.length) r →
        q + commentStart.length < r := by
  obtain ⟨hle, hstop⟩ := blockStop_bounds hinsert hbound
  obtain ⟨b₁, hb₁, huncomments⟩ := uncommentSelection_uncomments hl b
  simp only [TakesOff, hl.line]
  generalize blockStop b.syms b.start b.stop = stop at hle hstop huncomments ⊢
  rw [← hb₁] at hstop ⊢
  generalize uncommentSelection lang b = result at huncomments
  cases huncomments with
  | unopened hnot => exact iff_of_true ⟨_, rfl, Or.inl rfl⟩ fun q r hq _ => absurd hq (hnot q)
  | unclosed hq hnot =>
    refine iff_of_true ⟨_, rfl, Or.inl rfl⟩ fun q r hq' hr => ?_
    obtain rfl := hq.unique hq'
    exact absurd hr (hnot r)
  | block hq hr hlt =>
    obtain ⟨hoccurs, hoccurs', hfront, hbehind⟩ :=
      opens_closes_bounds hle hstop hl.start_ne hl.stop_ne hl.stop_isDelim hq hr
    obtain ⟨A, M, B, hsyms, rfl, rfl⟩ :=
      exists_block_of_occursAt hl.stop_ne hoccurs hoccurs' hlt.le
    have hM : M ≠ [] := by
      rintro rfl
      simp at hlt
    refine iff_of_true ⟨_, rfl, Or.inr ⟨commentStart, hl.start, commentEnd, hl.stop, A, M, B, hsyms,
      withoutBlock_syms hsyms hM, hfront, hbehind⟩⟩ fun q r hq' hr' => ?_
    obtain rfl := hq.unique hq'
    obtain rfl := hr.unique hr'
    exact hlt
  | fails hq hr hle =>
    refine iff_of_false (by simp) fun hall => ?_
    have := hall _ _ hq hr
    omega

end Right

/-- The two commands are right if something is commented out, a cursor at the end of its line does
not find the first string in the second one, and the strings that belong to the selection are
apart. -/
theorem comments_right_iff {lang : MooLang} (hlang : IsLang lang)
    (hinsert : b.insert ≤ b.syms.length) (hbound : b.selectionBound ≤ b.syms.length) :
    CommentsRight lang b ↔ Meets lang b := by
  by_cases hblock : ∃ commentStart commentEnd, HasBlock lang commentStart commentEnd
  · obtain ⟨commentStart, commentEnd, hblock⟩ := hblock
    have hl := hlang.blockLang hblock
    have honly {s t : List Char} (h : HasBlock lang s t) : s = commentStart ∧ t = commentEnd := by
      obtain ⟨-, hs, ht⟩ := h
      rw [hl.start, Option.some.injEq] at hs
      rw [hl.stop, Option.some.injEq] at ht
      exact ⟨hs.symm, ht.symm⟩
    obtain ⟨A, T, B, h⟩ := exists_blockAt hinsert hbound
    have htakes := takesOff_iff hl hinsert hbound
    have hT := h.commentedText
    constructor
    · rintro ⟨hrestores, htakesOff⟩
      constructor
      · intro s t hst hshare
        obtain ⟨rfl, rfl⟩ := honly hst
        rw [hT] at hshare
        have hright := (restored_iff hl h hshare).1 (hrestores fun s t hst => by
          obtain ⟨rfl, rfl⟩ := honly hst
          rwa [hT])
        rw [hT]
        refine ⟨hright.1, fun hcon => hright.2 ⟨hcon.1, ?_, hcon.2.2⟩⟩
        rw [← h.lineEnd hcon.1]
        exact hcon.2.1
      · intro s t hst
        obtain ⟨rfl, rfl⟩ := honly hst
        exact htakes.1 htakesOff
    · rintro ⟨hrestored, hapart⟩
      refine ⟨fun hshare => ?_, htakes.2 (hapart _ _ hblock)⟩
      have hshare := hshare _ _ hblock
      have hmeets := hrestored _ _ hblock hshare
      rw [hT] at hshare hmeets
      refine (restored_iff hl h hshare).2 ⟨hmeets.1, fun hcon => hmeets.2 ⟨hcon.1, ?_, hcon.2.2⟩⟩
      rw [h.lineEnd hcon.1]
      exact hcon.2.1
  · have hnone (s t : List Char) : ¬ HasBlock lang s t := fun h => hblock ⟨s, t, h⟩
    refine iff_of_true ?_ ⟨fun s t h => absurd h (hnone s t), fun s t h => absurd h (hnone s t)⟩
    cases hline : lang.lineComment with
    | some str =>
      obtain ⟨hne, hs⟩ := hlang.line str hline
      refine ⟨fun _ => uncommentSelection_commentSelection_line hline hne hs hinsert, ?_⟩
      simp only [TakesOff, hline]
      exact uncommentSelection_line hline hne hs b
    | none =>
      -- there are no comments at all
      have hno : hasComments lang = false := by
        cases hstart : lang.blockCommentStart with
        | none => simp [hasComments, hline, hstart]
        | some s =>
          cases hend : lang.blockCommentEnd with
          | none => simp [hasComments, hline, hend]
          | some t => exact absurd ⟨hline, hstart, hend⟩ (hnone s t)
      refine ⟨fun _ => ⟨b, ?_, rfl⟩, b, ?_, ?_⟩
      · simp [uncommentSelection, commentSelection, hno]
      · simp [uncommentSelection, hno]
      · simp [TakesOff, hline]

/-- A language with a line comment. -/
def slashes : MooLang := ⟨some ['/', '/'], none, none⟩

/-- A language with a block comment only. -/
def blocky : MooLang := ⟨none, some ['/', '*'], some ['*', '/']⟩

theorem comments_right_slashes : CommentsRight slashes ⟨[ofChar 'a'], 0, 1, 0⟩ := by
  refine (comments_right_iff ⟨?_, ?_, ?_⟩ (by decide) (by decide)).2
    ⟨fun _ _ h => absurd h.1 (by decide), fun _ _ h => absurd h.1 (by decide)⟩
  · rintro str ⟨⟩
    exact ⟨by simp, by simp [isDelim, paragraphSeparator]⟩
  · simp [slashes]
  · simp [slashes]

/-- An empty line that is commented out makes the assertion fail. -/
theorem uncomment_empty_fails :
    uncommentSelection blocky (commentSelection blocky ⟨[], 0, 0, 0⟩) = none ∧
      ¬ CommentsRight blocky ⟨[], 0, 0, 0⟩ := by
  have hfails : uncommentSelection blocky (commentSelection blocky ⟨[], 0, 0, 0⟩) = none := by
    decide
  refine ⟨hfails, fun h => ?_⟩
  obtain ⟨b', hb', -⟩ := h.restores fun s t _ c hc => by
    have hnil : commentedText ⟨[], 0, 0, 0⟩ = [] := by decide
    simp [hnil] at hc
  rw [hfails] at hb'
  cases hb'

end SelectedText

end Medit
