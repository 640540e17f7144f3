import Medit.LineBuffer.Runs

/-!
# Marks after an undone deletion

Undoing a deletion of whole lines inserts their text again. The marks of the line after them had
gone up with it, and come back only if the text starts with a line end.

## Main definitions

* `MarkBuffer.deleteActionNew`, `MarkBuffer.deleteActionUndo` — the undo record of a deletion.
* `MarkBuffer.KeepsMarks` — the marks outside of some lines are where they were.

## Main results

* `MarkRun.undo_keeps_marks` — when the marks are where they were.
-/

namespace Medit

open TextLines

namespace MarkBuffer

/-- `delete_action_new`: where the text was, and the text. -/
def deleteActionNew (b : MarkBuffer) (start stop : ℕ) : ℕ × List Char :=
  (min start stop, (b.text.take (max start stop)).drop (min start stop))

/-- `delete_action_undo` -/
def deleteActionUndo (b : MarkBuffer) (action : ℕ × List Char) : Option MarkBuffer :=
  b.insertText action.1 action.2

/-- The marks on lines that the deletion does not remove are in `b'` on the same line with the same
text. -/
def KeepsMarks (b b' : MarkBuffer) (start stop : ℕ) : Prop :=
  ∀ i m, b.lineBuf.OnLine i m → ¬ b.Removed start stop i →
    b'.lineBuf.OnLine i m ∧ TextLines.lineAt '\n' b'.text i = TextLines.lineAt '\n' b.text i

end MarkBuffer

variable {b : MarkBuffer}

/-- A range that ends where a line starts has the end of the line before. -/
theorem lineOf_lt_of_startsLine {text : List Char} {start stop : ℕ} (hlt : start < stop)
    (hle : stop ≤ text.length) (hstop : startsLine '\n' text stop) :
    lineOf '\n' text start < lineOf '\n' text stop := by
  obtain ⟨n, rfl⟩ : ∃ n, stop = n + 1 := ⟨stop - 1, by omega⟩
  have hlast : text[n]? = some '\n' := by
    rw [startsLine, List.getLast?_take] at hstop
    simpa [List.getElem?_eq_getElem (show n < text.length by omega)] using hstop
  have htake : text.take (n + 1) = text.take n ++ ['\n'] := by simp [List.take_add_one, hlast]
  have hmono := MarkBuffer.lineOf_mono text (show start ≤ n by omega)
  have hsucc : lineOf '\n' text (n + 1) = lineOf '\n' text n + 1 := by simp [lineOf, htake]
  omega

/-- Where the marks are after whole lines were deleted and the deletion undone. -/
theorem MarkRun.undo_lines (h : MarkRun b) {start stop : ℕ} (hlt : start < stop)
    (hstart : startsLine '\n' b.text start) (hstop : startsLine '\n' b.text stop)
    (hfits : b.Fits (.delete start stop))
    (hundo : ∀ b', b.run (.delete start stop) = some b' →
      b'.Fits (.insert start (b.deleteActionNew start stop).2)) :
    ∃ b₁ b₂, b.run (.delete start stop) = some b₁ ∧
      b₁.deleteActionUndo (b.deleteActionNew start stop) = some b₂ ∧ b₂.Good ∧ b₂.text = b.text ∧
      ∀ i m, b.lineBuf.OnLine i m → ¬ b.Removed start stop i →
        b₂.lineBuf.OnLine (if i = lineOf '\n' b.text stop ∧
            ¬ (b.text[start]? = some '\n' ∨ b.text[start]? = some '\r')
          then lineOf '\n' b.text start else i) m := by
  have hle : stop ≤ b.text.length := hfits.2.1
  have hlines := lineOf_lt_of_startsLine hlt hle hstop
  obtain ⟨b₁, moved, deleted, hdelete, hgood, hdel⟩ :=
    MarkBuffer.deleteRange_good h.good hfits.1 hle hfits.2.2
  have hrun : b.run (.delete start stop) = some b₁ := by simp [MarkBuffer.run, hdelete]
  obtain ⟨hpos, hcount, hstamp⟩ := hundo b₁ hrun
  obtain ⟨b₂, hinsert, hgood₂, htext, -, hline, -⟩ :=
    MarkBuffer.insertText_good hgood hpos hcount hstamp
  have haction : b.deleteActionNew start stop = (start, (b.text.take stop).drop start) := by
    simp [MarkBuffer.deleteActionNew, hlt.le]
  have hdeltext := hdel.text
  rw [min_eq_left hlt.le, max_eq_right hlt.le] at hdeltext
  rw [haction] at hinsert htext hline
  have hlen : (b.text.take start).length = start := List.length_take_of_le (by omega)
  have htake : b₁.text.take start = b.text.take start := by
    rw [hdeltext, List.take_left' hlen]
  have hslice : b.text.take start ++ (b.text.take stop).drop start = b.text.take stop := by
    have hshort : b.text.take start = (b.text.take stop).take start := by
      rw [List.take_take, min_eq_left hlt.le]
    rw [hshort, List.take_append_drop]
  have htext₂ : b₂.text = b.text := by
    rw [htext, htake, hslice, hdeltext, List.drop_left' hlen, List.take_append_drop]
  -- the lines `first` to `last` are deleted and inserted again
  set first := lineOf '\n' b.text start with hfirst
  set last := lineOf '\n' b.text stop with hlast
  have hlinecount : first + ((b.text.take stop).drop start).count '\n' = last := by
    rw [hfirst, hlast, lineOf, lineOf, ← List.count_append, hslice]
  have hremoved (i : ℕ) : b.Removed start stop i ↔ first ≤ i ∧ i < last := by
    rw [MarkBuffer.Removed, MarkBuffer.firstLine, MarkBuffer.lastLine, min_eq_left hlt.le,
      max_eq_right hlt.le, if_pos hstart]
  have hhead : ((b.text.take stop).drop start).head? = b.text[start]? := by
    rw [List.head?_drop, List.getElem?_take_of_lt hlt]
  refine ⟨b₁, b₂, hrun, by rw [MarkBuffer.deleteActionUndo, haction]; exact hinsert, hgood₂, htext₂,
    fun i m hon hnot => ?_⟩
  have hkept := (hdel.kept i m hon hnot).2.2.1
  rw [hremoved] at hnot
  convert hline _ m hkept using 1
  have hafter : lineAfter '\n' b.text start stop i =
      if i ≤ first then i else i - (last - first) := rfl
  have hfirst₁ : lineOf '\n' b₁.text start = first := by rw [lineOf, htake]; rfl
  have hstart₁ : startsLine '\n' b₁.text start = true := by rwa [startsLine, htake]
  -- the line between the deletion and its undoing
  obtain ⟨j, hj, hij⟩ : ∃ j, j = (if i ≤ first then i else i - (last - first)) ∧
      (i < first ∧ j = i ∨ first ≤ j ∧ i = j + (last - first)) :=
    ⟨_, rfl, by split_ifs <;> omega⟩
  simp only [MarkBuffer.pushedLine, min_eq_left hlt.le, max_eq_right hlt.le, hhead, hafter, ← hj,
    hfirst₁, hstart₁, true_and]
  by_cases hnewline : b.text[start]? = some '\n' ∨ b.text[start]? = some '\r' <;>
    simp only [hnewline, not_true, not_false_iff, and_false, and_true, or_false,
      if_false] <;>
    split_ifs <;> omega

/-- Whole lines are deleted and the deletion is undone. The marks outside of them are where they
were exactly if there is no mark on the line after them, or the text that is inserted again starts
with a line end. -/
theorem MarkRun.undo_keeps_marks (h : MarkRun b) {start stop : ℕ} (hlt : start < stop)
    (hstart : startsLine '\n' b.text start) (hstop : startsLine '\n' b.text stop)
    (hfits : b.Fits (.delete start stop))
    (hundo : ∀ b', b.run (.delete start stop) = some b' →
      b'.Fits (.insert start (b.deleteActionNew start stop).2)) :
    ∃ b₁ b₂, b.run (.delete start stop) = some b₁ ∧
      b₁.deleteActionUndo (b.deleteActionNew start stop) = some b₂ ∧ b₂.text = b.text ∧
      (b.KeepsMarks b₂ start stop ↔
        (∀ m, ¬ b.lineBuf.OnLine (lineOf '\n' b.text stop) m) ∨
          b.text[start]? = some '\n' ∨ b.text[start]? = some '\r') := by
  have hlines := lineOf_lt_of_startsLine hlt hfits.2.1 hstop
  have hremoved : ¬ b.Removed start stop (lineOf '\n' b.text stop) := by
    rw [MarkBuffer.Removed, MarkBuffer.lastLine, min_eq_left hlt.le, max_eq_right hlt.le,
      if_pos hstart]
    omega
  obtain ⟨b₁, b₂, hdelete, hinsert, hgood, htext, hline⟩ :=
    h.undo_lines hlt hstart hstop hfits hundo
  refine ⟨b₁, b₂, hdelete, hinsert, htext, ?_⟩
  constructor
  · intro hkeeps
    by_contra hnot
    rw [not_or, not_forall] at hnot
    obtain ⟨⟨m, hm⟩, hchar⟩ := hnot
    rw [not_not] at hm
    have hat := (hkeeps _ m hm hremoved).1
    have hup := hline _ m hm hremoved
    rw [if_pos ⟨rfl, hchar⟩] at hup
    have := hat.unique hgood.marked hup
    omega
  · intro hcond i m hon hnot
    have hup := hline i m hon hnot
    rw [if_neg] at hup
    · exact ⟨hup, by rw [htext]⟩
    · rintro ⟨rfl, hchar⟩
      exact hcond.elim (fun hnone => hnone m hon) hchar

instance (b : MarkBuffer) : ∀ op, Decidable (b.Fits op)
  | .insert pos text => inferInstanceAs (Decidable (pos ≤ b.text.length ∧
      b.lineCount + text.count '\n' < 2 ^ 26 ∧ b.lineBuf.stamp + text.count '\n' < 2 ^ 32))
  | .delete start stop => inferInstanceAs (Decidable (start ≤ b.text.length ∧ stop ≤ b.text.length ∧
      b.lineBuf.stamp + (b.lastLine start stop - b.firstLine start stop) < 2 ^ 32))
  | .add _ _ => inferInstanceAs (Decidable (b.lineBuf.nMarks b.lineBuf.root + 1 < 2 ^ 31))
  | .move _ line => inferInstanceAs (Decidable (0 ≤ line))
  | .remove _ => inferInstanceAs (Decidable True)

/-- A text is inserted, its second line gets a mark, and the first one is deleted. -/
def deleteBeforeMark (text : List Char) (stop : ℕ) :
    Option (MarkBuffer × MarkBuffer × MarkBuffer) := do
  let b₀ ← MarkBuffer.new.run (.insert 0 text)
  let b ← b₀.run (.add 7 1)
  let b₁ ← b.run (.delete 0 stop)
  return (b₀, b, b₁)

theorem deleteBeforeMark_spec {text : List Char} {stop : ℕ}
    (h : (deleteBeforeMark text stop).any fun (b₀, b, b₁) =>
      MarkBuffer.new.Fits (.insert 0 text) ∧ b₀.Fits (.add 7 1) ∧ b.text = text ∧
        b.lineBuf.rows = [[], [7]] ∧ b.Fits (.delete 0 stop) ∧
        b₁.Fits (.insert 0 (b.deleteActionNew 0 stop).2)) :
    ∃ b, MarkRun b ∧ b.text = text ∧ b.lineBuf.OnLine 1 7 ∧ b.Fits (.delete 0 stop) ∧
      ∀ b', b.run (.delete 0 stop) = some b' →
        b'.Fits (.insert 0 (b.deleteActionNew 0 stop).2) := by
  cases hsome : deleteBeforeMark text stop with
  | none => simp [hsome] at h
  | some s =>
    obtain ⟨b₀, b, b₁⟩ := s
    simp only [hsome, Option.any_some, decide_eq_true_eq] at h
    obtain ⟨hfits₀, hfits, htext, hrows, hdelete, hinsert⟩ := h
    simp only [deleteBeforeMark, Option.bind_eq_bind, Option.bind_eq_some_iff, Option.pure_def,
      Option.some.injEq, Prod.mk.injEq] at hsome
    obtain ⟨_, h₀, _, h₁, _, h₂, rfl, rfl, rfl⟩ := hsome
    refine ⟨_, .step _ (.step _ .new hfits₀ h₀) hfits h₁, htext, ⟨[7], by rw [hrows]; rfl, by simp⟩,
      hdelete, fun b' hb' => ?_⟩
    obtain rfl := Option.some.inj (h₂.symm.trans hb')
    exact hinsert

theorem MarkRun.undo_keeps_marks_empty_line : ∃ b b₁ b₂, MarkRun b ∧ b.text = ['\n', 'a'] ∧
    b.lineBuf.OnLine 1 7 ∧ b.run (.delete 0 1) = some b₁ ∧
    b₁.deleteActionUndo (b.deleteActionNew 0 1) = some b₂ ∧ b.KeepsMarks b₂ 0 1 := by
  obtain ⟨b, hrun, htext, hon, hfits, hundo⟩ :=
    @deleteBeforeMark_spec ['\n', 'a'] 1 (by decide)
  obtain ⟨b₁, b₂, hdelete, hinsert, -, hkeeps⟩ :=
    hrun.undo_keeps_marks (by decide) rfl (by rw [htext]; rfl) hfits hundo
  exact ⟨b, b₁, b₂, hrun, htext, hon, hdelete, hinsert, hkeeps.2 (by simp [htext])⟩

/-- The mark of the second line is on the first one after the first line was deleted and has come
back. -/
theorem MarkRun.undo_moves_mark : ∃ b b₁ b₂, MarkRun b ∧ b.text = ['a', '\n', 'b'] ∧
    b.lineBuf.OnLine 1 7 ∧ b.run (.delete 0 2) = some b₁ ∧
    b₁.deleteActionUndo (b.deleteActionNew 0 2) = some b₂ ∧ b₂.text = b.text ∧
    b₂.lineBuf.OnLine 0 7 ∧ ¬ b.KeepsMarks b₂ 0 2 := by
  obtain ⟨b, hrun, htext, hon, hfits, hundo⟩ :=
    @deleteBeforeMark_spec ['a', '\n', 'b'] 2 (by decide)
  obtain ⟨b₁, b₂, hdelete, hinsert, hgood, htext₂, hline⟩ :=
    hrun.undo_lines (by decide) rfl (by rw [htext]; rfl) hfits hundo
  have hremoved : ¬ b.Removed 0 2 1 := by
    rw [MarkBuffer.Removed, MarkBuffer.firstLine, MarkBuffer.lastLine, htext]
    decide
  have hfirst := hline 1 7 hon hremoved
  rw [htext] at hfirst
  exact ⟨b, b₁, b₂, hrun, htext, hon, hdelete, hinsert, htext₂, hfirst, fun hkeeps =>
    absurd ((hkeeps 1 7 hon hremoved).1.unique hgood.marked hfirst) (by decide)⟩

end Medit
