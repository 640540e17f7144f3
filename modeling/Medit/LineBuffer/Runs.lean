import Mathlib.Data.Set.Card
import Medit.LineBuffer.Limits

/-!
# Every run of a text with line marks

The text and the line buffer after any sequence of insertions, deletions and operations on marks.

## Main definitions

* `MarkOp`, `MarkBuffer.run` — the operations.
* `MarkBuffer.Fits` — what an operation needs: positions of the text, and numbers that stay within
  their machine types.
* `MarkBuffer.Deletion` — what a deletion does to the marks.

## Main results

* `MarkRun.marks_agree` — the line buffer has the lines of the text, and its marks are where they
  belong.
-/

namespace Medit

open Function (update)
open TextLines

namespace BTree

variable {t : BTree} {out : List MarkPtr}

/-! ## Rows -/

theorem OnLine.lt {i : ℕ} {m : MarkPtr} (h : t.OnLine i m) : i < t.rows.length := by
  obtain ⟨row, hrow, -⟩ := h
  exact (List.getElem?_eq_some_iff.1 hrow).1

theorem OnLine.unique (hm : t.Marked out) {i j : ℕ} {m : MarkPtr} (h : t.OnLine i m)
    (h' : t.OnLine j m) : i = j := by
  obtain ⟨r, hr, hmr⟩ := h
  obtain ⟨s, hs, hms⟩ := h'
  obtain ⟨x, hx, rfl⟩ : ∃ x, t.lines[i]? = some x ∧ t.marks x = r := by
    simpa [getElem?_rows] using hr
  obtain ⟨y, hy, rfl⟩ : ∃ y, t.lines[j]? = some y ∧ t.marks y = s := by
    simpa [getElem?_rows] using hs
  obtain rfl := hm.line_unique (List.mem_of_getElem? hx) (List.mem_of_getElem? hy) hmr hms
  obtain ⟨hi, hxi⟩ := List.getElem?_eq_some_iff.1 hx
  obtain ⟨hj, hxj⟩ := List.getElem?_eq_some_iff.1 hy
  exact hm.nodup_lines.getElem_inj_iff.1 (hxi.trans hxj.symm)

/-- The marks of some rows in the middle. -/
theorem mem_flatten_iff {A M B : List (List MarkPtr)} (h : t.rows = A ++ (M ++ B)) {m : MarkPtr} :
    m ∈ M.flatten ↔ ∃ i, A.length ≤ i ∧ i < A.length + M.length ∧ t.OnLine i m := by
  constructor
  · intro hm
    obtain ⟨r, hr, hmr⟩ := List.mem_flatten.1 hm
    obtain ⟨k, hk⟩ := List.mem_iff_getElem?.1 hr
    have hlt := (List.getElem?_eq_some_iff.1 hk).1
    refine ⟨A.length + k, by omega, by omega, r, ?_, hmr⟩
    rw [h, List.getElem?_append_right (by omega), Nat.add_sub_cancel_left,
      List.getElem?_append_left hlt, hk]
  · rintro ⟨i, hge, hlt, r, hr, hmr⟩
    rw [h, List.getElem?_append_right hge, List.getElem?_append_left (by omega)] at hr
    exact List.mem_flatten.2 ⟨r, List.mem_of_getElem? hr, hmr⟩

/-- A mark is in the buffer if it is on a line. -/
theorem Marked.live_iff (hm : t.Marked []) (m : MarkPtr) :
    (t.mark m).buffer = true ↔ ∃ i, t.OnLine i m := by
  constructor
  · intro hb
    obtain ⟨x, hx, hmx⟩ := (hm.live m hb).resolve_left (by simp)
    obtain ⟨i, hi⟩ := List.mem_iff_getElem?.1 hx
    exact ⟨i, t.marks x, by rw [getElem?_rows, hi, Option.map_some], hmx⟩
  · rintro ⟨i, r, hr, hmr⟩
    obtain ⟨x, hx, rfl⟩ : ∃ x, t.lines[i]? = some x ∧ t.marks x = r := by
      simpa [getElem?_rows] using hr
    exact (hm.on_line x (List.mem_of_getElem? hx) m hmr).1

end BTree

/-! ## Operations -/

/-- An operation on a text with line marks. -/
inductive MarkOp where
  | insert (pos : ℕ) (text : List Char)
  | delete (start stop : ℕ)
  | add (mark : MarkPtr) (line : ℤ)
  | move (mark : MarkPtr) (line : ℤ)
  | remove (mark : MarkPtr)

namespace MarkBuffer

def run (b : MarkBuffer) : MarkOp → Option MarkBuffer
  | .insert pos text => b.insertText pos text
  | .delete start stop => (b.deleteRange start stop).map Prod.fst
  | .add mark line => b.addLineMark mark line
  | .move mark line => (moveLineMark b.lineBuf mark line).map fun t => { b with lineBuf := t }
  | .remove mark => b.deleteLineMark mark

/-- The line of the first character of a range. -/
def firstLine (b : MarkBuffer) (start stop : ℕ) : ℕ := lineOf '\n' b.text (min start stop)

/-- The line of the end of a range. -/
def lastLine (b : MarkBuffer) (start stop : ℕ) : ℕ := lineOf '\n' b.text (max start stop)

/-- What an operation needs. Positions are in the text and a mark is not moved to a negative line;
there is room for the new lines and marks, and the stamp of the tree does not wrap. -/
def Fits (b : MarkBuffer) : MarkOp → Prop
  | .insert pos text => pos ≤ b.text.length ∧ b.lineCount + text.count '\n' < 2 ^ 26 ∧
      b.lineBuf.stamp + text.count '\n' < 2 ^ 32
  | .delete start stop => start ≤ b.text.length ∧ stop ≤ b.text.length ∧
      b.lineBuf.stamp + (b.lastLine start stop - b.firstLine start stop) < 2 ^ 32
  | .add _ _ => b.lineBuf.nMarks b.lineBuf.root + 1 < 2 ^ 31
  | .move _ line => 0 ≤ line
  | .remove _ => True

/-- The line `i` is removed by a deletion. -/
def Removed (b : MarkBuffer) (start stop i : ℕ) : Prop :=
  if startsLine '\n' b.text (min start stop) then
    b.firstLine start stop ≤ i ∧ i < b.lastLine start stop
  else b.firstLine start stop < i ∧ i ≤ b.lastLine start stop

/-- What a deletion does to the marks: those of removed lines are deleted, or moved from the last
line to the first; the others stay on the line that holds what is left of theirs. -/
structure Deletion (b b' : MarkBuffer) (start stop : ℕ) (moved deleted : List MarkPtr) : Prop where
  text : b'.text = b.text.take (min start stop) ++ b.text.drop (max start stop)
  removed : ∀ i m, b.lineBuf.OnLine i m → b.Removed start stop i →
    (deleted.count m = 1 ∧ m ∉ moved ∧ (b'.lineBuf.mark m).buffer = false ∧
      (b'.lineBuf.mark m).line = none) ∨
    (moved.count m = 1 ∧ m ∉ deleted ∧ startsLine '\n' b.text (min start stop) = false ∧
      i = b.lastLine start stop ∧ b'.lineBuf.OnLine (b.firstLine start stop) m)
  kept : ∀ i m, b.lineBuf.OnLine i m → ¬ b.Removed start stop i → m ∉ deleted ∧ m ∉ moved ∧
    b'.lineBuf.OnLine (lineAfter '\n' b.text (min start stop) (max start stop) i) m ∧
    remains '\n' b.text (min start stop) (max start stop) i <:+:
      TextLines.lineAt '\n' b'.text (lineAfter '\n' b.text (min start stop) (max start stop) i)
  only : ∀ m, m ∈ deleted ∨ m ∈ moved → ∃ i, b.lineBuf.OnLine i m ∧ b.Removed start stop i

/-- The line buffer has the lines of the text, and its marks are in order. -/
structure Good (b : MarkBuffer) : Prop where
  marked : b.lineBuf.Marked []
  lines : b.lineBuf.rows.length = b.lineCount

theorem new_good : new.Good := by
  obtain ⟨lev, hok, hs⟩ := BTree.new_ok
  have hlines : BTree.new.lines = [1] := rfl
  exact ⟨⟨⟨lev, hok⟩, hs, by simp [new, BTree.new], by simp [new, BTree.new],
    by simp [new, BTree.new, LineMark.init], by simp, fun _ _ => rfl,
    by simp [new, BTree.new, LineMark.init], by simp [new, BTree.new]⟩, rfl⟩

variable {b b' : MarkBuffer}

/-! ## Insertion -/

theorem lineOf_le (text : List Char) (pos : ℕ) : lineOf '\n' text pos ≤ text.count '\n' :=
  (List.take_sublist pos text).count_le _

theorem lineOf_insert (x y text : List Char) :
    lineOf '\n' (x ++ text ++ y) (x.length + text.length) = x.count '\n' + text.count '\n' := by
  rw [lineOf, ← List.length_append, List.take_left, List.count_append]

/-- The new lines. -/
theorem insertLines_good (hb : b.Good) (line num : ℕ) (hline : line < b.lineCount)
    (hlines : b.lineCount + num < 2 ^ 26) (hstamp : b.lineBuf.stamp + num < 2 ^ 32) :
    ∃ t, insertLines b.lineBuf line (line + num) = some t ∧ t.Marked [] ∧
      t.rows.length = b.lineCount + num ∧ t.stamp = b.lineBuf.stamp + num ∧
      (∀ i m, b.lineBuf.OnLine i m → t.OnLine (if i ≤ line then i else i + num) m) ∧
      ∀ m, (t.mark m).buffer = (b.lineBuf.mark m).buffer := by
  have hrows := hb.lines
  obtain rfl | hnum := Nat.eq_zero_or_pos num
  · exact ⟨b.lineBuf, by simp [insertLines], hb.marked, hrows, rfl, by simp, fun _ => rfl⟩
  · obtain ⟨t, hinsert, hm, hrows', hmark, hst⟩ := BTree.insertRange_marked hb.marked
      (line + 1) num (by omega) hnum (by omega) hstamp
    refine ⟨t, ?_, hm, ?_, hst, ?_, fun m => by rw [hmark]⟩
    · have hnum' : ((line + num : ℕ) : ℤ) - line = num := by omega
      rw [insertLines, if_pos (by omega), BTree.splitLine, hnum', gAssert_true (by omega)]
      exact hinsert
    · rw [hrows']
      simp only [List.length_append, List.length_take, List.length_drop, List.length_replicate]
      omega
    · rintro i m ⟨row, hrow, hmem⟩
      obtain ⟨hi, -⟩ := List.getElem?_eq_some_iff.1 hrow
      refine ⟨row, ?_, hmem⟩
      rw [hrows', ← hrow]
      split_ifs with hle
      · rw [List.append_assoc, List.getElem?_append_left (by simp; omega),
          List.getElem?_take_of_lt (by omega)]
      · rw [List.getElem?_append_right (by simp; omega), List.getElem?_drop]
        congr 1
        simp
        omega

/-- The marks of a line are moved. -/
theorem moveLineMarks_good {t : BTree} (hm : t.Marked []) (ms : List MarkPtr) (line : ℕ) :
    ∃ t', ms.foldlM (fun t mark => moveLineMark t mark line) t = some t' ∧ t'.Marked [] ∧
      t'.lines = t.lines ∧ t'.stamp = t.stamp ∧
      (line < t.rows.length → ∀ m ∈ ms, (t.mark m).buffer = true → t'.OnLine line m) ∧
      (∀ i m, m ∉ ms → t.OnLine i m → t'.OnLine i m) ∧
      ∀ m, (t'.mark m).buffer = (t.mark m).buffer := by
  induction ms generalizing t with
  | nil => exact ⟨t, rfl, hm, rfl, rfl, by simp, by simp, fun _ => rfl⟩
  | cons m ms ih =>
    obtain ⟨t₁, hmove, hm₁, hlines₁, hst₁, hline₁, hother₁, hbuf₁⟩ :=
      BTree.moveLineMark_spec hm m line
    obtain ⟨t₂, hrun, hm₂, hlines₂, hst₂, hline₂, hother₂, hbuf₂⟩ := ih hm₁
    have hrows₁ : t₁.rows.length = t.rows.length := by
      rw [BTree.length_rows, hlines₁, BTree.length_rows]
    refine ⟨t₂, by simpa [hmove] using hrun, hm₂, hlines₂.trans hlines₁, hst₂.trans hst₁,
      fun hlt m' hmem hbuf => ?_, fun i m' hmem hon => ?_, fun m' => (hbuf₂ m').trans (hbuf₁ m')⟩
    · by_cases hms : m' ∈ ms
      · exact hline₂ (hrows₁ ▸ hlt) m' hms (by rwa [hbuf₁])
      · obtain rfl : m' = m := by simpa [hms] using hmem
        exact hother₂ line m' hms (hline₁ hbuf hlt)
    · obtain ⟨hne, hms⟩ : m' ≠ m ∧ m' ∉ ms := by simpa using hmem
      exact hother₂ i m' hms ((hother₁ i m' hne).2 hon)

/-- The marks of the line go to the last one, or stay. -/
theorem pushMarks_good {t : BTree} (hm : t.Marked []) (startsLine insLine : Bool) (firstLine : ℕ)
    (hfirst : firstLine < t.rows.length) {lastLine : ℕ} (hlast : lastLine < t.rows.length) :
    ∃ t', pushMarks t startsLine insLine firstLine lastLine = some t' ∧ t'.Marked [] ∧
      t'.lines = t.lines ∧ t'.stamp = t.stamp ∧
      (∀ i m, t.OnLine i m →
        t'.OnLine (if (startsLine && insLine) ∧ i = firstLine then lastLine else i) m) ∧
      ∀ m, (t'.mark m).buffer = (t.mark m).buffer := by
  rw [pushMarks]
  split_ifs with hpush
  · obtain ⟨x, hx, -⟩ := BTree.getData_mem hm hfirst
    obtain ⟨t₁, hget, href⟩ := BTree.getMarksInRange_spec hm hx
    obtain ⟨t₂, hrun, hm₂, hlines₂, hst₂, hline₂, hother₂, hbuf₂⟩ :=
      moveLineMarks_good (href.marked hm) (t.marks x) lastLine
    refine ⟨t₂, by rw [hget, Option.bind_eq_bind, Option.bind_some]; exact hrun, hm₂,
      hlines₂.trans href.lines, hst₂.trans href.stamp, fun i m hon => ?_, fun m =>
        (hbuf₂ m).trans (href.buffer m)⟩
    have hrow : t.OnLine firstLine m ↔ m ∈ t.marks x := by
      rw [BTree.OnLine, BTree.getElem?_rows, hx]
      simp
    by_cases hi : i = firstLine
    · rw [if_pos ⟨hpush, hi⟩]
      exact hline₂ (href.rows ▸ hlast) m (hrow.1 (hi ▸ hon))
        ((href.buffer m).trans ((hm.live_iff m).2 ⟨i, hon⟩))
    · rw [if_neg (fun h => hi h.2)]
      exact hother₂ i m (fun hmem => hi (hon.unique hm (hrow.2 hmem)))
        (by rwa [BTree.OnLine, href.rows])
  · exact ⟨t, rfl, hm, rfl, rfl, fun i m hon => by simpa [hpush] using hon, fun _ => rfl⟩

/-- The line that holds the text of line `i` after an insertion, as the marks have it. -/
def pushedLine (b : MarkBuffer) (pos : ℕ) (text : List Char) (i : ℕ) : ℕ :=
  if i < lineOf '\n' b.text pos ∨ i = lineOf '\n' b.text pos ∧
      ¬ (startsLine '\n' b.text pos ∧ (text.head? = some '\n' ∨ text.head? = some '\r'))
  then i else i + text.count '\n'

theorem insertText_good (hb : b.Good) {pos : ℕ} {text : List Char} (hpos : pos ≤ b.text.length)
    (hlines : b.lineCount + text.count '\n' < 2 ^ 26)
    (hstamp : b.lineBuf.stamp + text.count '\n' < 2 ^ 32) :
    ∃ b', b.insertText pos text = some b' ∧ b'.Good ∧
      b'.text = b.text.take pos ++ text ++ b.text.drop pos ∧
      b'.lineBuf.stamp = b.lineBuf.stamp + text.count '\n' ∧
      (∀ i m, b.lineBuf.OnLine i m → b'.lineBuf.OnLine (b.pushedLine pos text i) m) ∧
      ∀ m, (b'.lineBuf.mark m).buffer = (b.lineBuf.mark m).buffer := by
  cases text with
  | nil => exact ⟨b, rfl, hb, by simp, rfl, by simp [pushedLine], fun _ => rfl⟩
  | cons c cs =>
    have hlen : (b.text.take pos).length = pos := List.length_take_of_le hpos
    have hlast : lineOf '\n' (b.text.take pos ++ (c :: cs) ++ b.text.drop pos)
        (pos + (c :: cs).length) = lineOf '\n' b.text pos + (c :: cs).count '\n' := by
      have := lineOf_insert (b.text.take pos) (b.text.drop pos) (c :: cs)
      rwa [hlen] at this
    have hfirst := lineOf_le b.text pos
    have hcount : b.lineCount = b.text.count '\n' + 1 := rfl
    have hnew : (b.text.take pos ++ (c :: cs) ++ b.text.drop pos).count '\n' + 1 =
        b.lineCount + (c :: cs).count '\n' := by
      have := congrArg (List.count '\n') (List.take_append_drop pos b.text)
      rw [List.count_append] at this
      rw [List.count_append, List.count_append]
      omega
    obtain ⟨t₁, hsplit, hm₁, hrows₁, hst₁, hline₁, hbuf₁⟩ := insertLines_good hb
      (lineOf '\n' b.text pos) _ (by omega) hlines hstamp
    obtain ⟨t₂, hpush, hm₂, hlines₂, hst₂, hline₂, hbuf₂⟩ := pushMarks_good hm₁
      (startsLine '\n' b.text pos) (c == '\n' || c == '\r') (lineOf '\n' b.text pos)
      (by omega) (show lineOf '\n' b.text pos + (c :: cs).count '\n' < _ by omega)
    refine ⟨⟨_, t₂⟩, ?_, ⟨hm₂, ?_⟩, rfl, hst₂.trans hst₁, fun i m hon => ?_, fun m =>
      (hbuf₂ m).trans (hbuf₁ m)⟩
    · simp only [insertText, hlast, hsplit, hpush, Option.bind_eq_bind, Option.bind_some]
      rfl
    · rw [BTree.length_rows, hlines₂, ← BTree.length_rows, hrows₁, ← hnew]
      rfl
    · convert hline₂ _ m (hline₁ i m hon) using 1
      simp only [pushedLine, List.head?_cons, Option.some.injEq, Bool.and_eq_true, Bool.or_eq_true,
        beq_iff_eq]
      grind

/-! ## Deletion -/

theorem not_removed_of_eq {start stop i : ℕ} (h : b.firstLine start stop = b.lastLine start stop) :
    ¬ b.Removed start stop i := by
  rw [Removed, h]
  split_ifs <;> omega

/-- What a deletion does to the line buffer. -/
structure Removes (b : MarkBuffer) (t : BTree) (start stop : ℕ) (moved deleted : List MarkPtr) :
    Prop where
  marked : t.Marked deleted
  lines : t.rows.length + b.lastLine start stop = b.lineCount + b.firstLine start stop
  nodup : (deleted ++ moved).Nodup
  mem : ∀ m, m ∈ deleted ∨ m ∈ moved ↔ ∃ i, b.lineBuf.OnLine i m ∧ b.Removed start stop i
  moved : ∀ m ∈ moved, startsLine '\n' b.text (min start stop) = false ∧
    b.lineBuf.OnLine (b.lastLine start stop) m ∧ t.OnLine (b.firstLine start stop) m
  kept : ∀ i m, b.lineBuf.OnLine i m → ¬ b.Removed start stop i →
    t.OnLine (lineAfter '\n' b.text (min start stop) (max start stop) i) m
  buffer : ∀ m, (t.mark m).buffer = (b.lineBuf.mark m).buffer

theorem lineOf_mono (text : List Char) {x y : ℕ} (h : x ≤ y) :
    lineOf '\n' text x ≤ lineOf '\n' text y :=
  ((List.take_prefix_take_left h).sublist).count_le _

theorem firstLine_le (b : MarkBuffer) (start stop : ℕ) :
    b.firstLine start stop ≤ b.lastLine start stop :=
  lineOf_mono _ (Nat.le_trans (Nat.min_le_left ..) (Nat.le_max_left ..))

theorem lastLine_lt (b : MarkBuffer) (start stop : ℕ) : b.lastLine start stop < b.lineCount :=
  Nat.lt_succ_of_le (lineOf_le ..)

theorem lineAfter_eq (start stop i : ℕ) :
    lineAfter '\n' b.text (min start stop) (max start stop) i =
      if i ≤ b.firstLine start stop then i
      else i - (b.lastLine start stop - b.firstLine start stop) := rfl

/-- The rows of some lines from `first` to `last`. -/
theorem rows_decomp (t : BTree) {first last : ℕ} (hle : first ≤ last) (hlast : last ≤ t.rows.length) :
    ∃ A M B, t.rows = A ++ (M ++ B) ∧ A.length = first ∧ first + M.length = last := by
  refine ⟨t.rows.take first, (t.rows.drop first).take (last - first), t.rows.drop last, ?_, by simp; omega,
    by simp; omega⟩
  rw [← List.append_assoc, ← List.take_add, Nat.add_sub_cancel' hle, List.take_append_drop]

/-- A deletion from the start of a line. -/
theorem removeLines_starts (hb : b.Good) {start stop : ℕ}
    (hlt : b.firstLine start stop < b.lastLine start stop)
    (hs : startsLine '\n' b.text (min start stop) = true)
    (hstamp : b.lineBuf.stamp + (b.lastLine start stop - b.firstLine start stop) < 2 ^ 32) :
    ∃ t moved deleted, removeLines b.lineBuf true (b.firstLine start stop) (b.lastLine start stop) =
      some (t, moved, deleted) ∧ b.Removes t start stop moved deleted := by
  have hlast := b.lastLine_lt start stop
  have hlines := hb.lines
  obtain ⟨A, M, B, hrows, hA, hM⟩ := rows_decomp b.lineBuf (Nat.le_of_lt hlt) (by omega)
  have hlen := congrArg List.length hrows
  rw [List.length_append, List.length_append] at hlen
  obtain ⟨t, hdel, hm, hrows', hbuf⟩ := BTree.deleteLines_spec hb.marked hrows
    (List.length_pos_iff.1 (by omega)) (List.length_pos_iff.1 (by omega)) (by omega)
  have hnum : ((b.lastLine start stop : ℕ) : ℤ) - (b.firstLine start stop : ℕ) = M.length := by omega
  have hremoved (i : ℕ) : b.Removed start stop i ↔ A.length ≤ i ∧ i < A.length + M.length := by
    rw [Removed, if_pos hs]
    omega
  have hnd : M.flatten.Nodup := by
    have := hb.marked.nodup_rows
    rw [hrows, List.flatten_append, List.flatten_append] at this
    exact (List.nodup_append.1 (List.nodup_append.1 this).2.1).1
  have hlen' := congrArg List.length hrows'
  rw [List.length_append] at hlen'
  refine ⟨t, [], M.flatten.reverse, ?_, hm.of_out (by simp), by omega, by simpa using hnd,
    fun m => ?_, by simp, fun i m hon hnot => ?_, hbuf⟩
  · rw [removeLines, if_pos hlt, if_pos rfl, hnum, ← hA]
    exact hdel
  · simp only [List.mem_reverse, List.not_mem_nil, or_false, hremoved, BTree.mem_flatten_iff hrows]
    exact exists_congr fun i => by tauto
  · have hi := hon.lt
    rw [hremoved] at hnot
    obtain ⟨row, hrow, hmrow⟩ := hon
    refine ⟨row, ?_, hmrow⟩
    rw [lineAfter_eq, hrows']
    rw [hrows] at hrow
    by_cases hlt' : i < A.length
    · rw [if_pos (by omega), List.getElem?_append_left hlt']
      rwa [List.getElem?_append_left hlt'] at hrow
    · rw [List.getElem?_append_right (by omega), List.getElem?_append_right (by omega)] at hrow
      rw [if_neg (by omega), List.getElem?_append_right (by omega), ← hrow]
      congr 1
      omega

/-- A deletion from inside a line. -/
theorem removeLines_inside (hb : b.Good) {start stop : ℕ}
    (hlt : b.firstLine start stop < b.lastLine start stop)
    (hs : startsLine '\n' b.text (min start stop) = false)
    (hstamp : b.lineBuf.stamp + (b.lastLine start stop - b.firstLine start stop) < 2 ^ 32) :
    ∃ t moved deleted, removeLines b.lineBuf false (b.firstLine start stop) (b.lastLine start stop) =
      some (t, moved, deleted) ∧ b.Removes t start stop moved deleted := by
  have hlast := b.lastLine_lt start stop
  have hlines := hb.lines
  obtain ⟨A, N, C, hrows, hA, hN⟩ := rows_decomp b.lineBuf (Nat.le_of_lt hlt) (by omega)
  have hlen := congrArg List.length hrows
  rw [List.length_append, List.length_append] at hlen
  obtain ⟨row, M, rfl⟩ := List.exists_cons_of_length_pos (l := N) (by omega)
  obtain ⟨last, B, rfl⟩ := List.exists_cons_of_length_pos (l := C) (by omega)
  rw [List.length_cons] at hN
  obtain ⟨t, hdel, hm, hrows', hbuf⟩ := BTree.deleteLines_move_spec hb.marked
    (show _ = A ++ row :: (M ++ last :: B) from hrows) (by omega)
  have hnum : ((b.lastLine start stop : ℕ) : ℤ) - (b.firstLine start stop : ℕ) = (M.length + 1 : ℕ) := by
    omega
  have hremoved (i : ℕ) : b.Removed start stop i ↔
      (A ++ [row]).length ≤ i ∧ i < (A ++ [row]).length + (M ++ [last]).length := by
    rw [Removed, if_neg (by simp [hs])]
    simp only [List.length_append, List.length_singleton]
    omega
  have hrows₂ : b.lineBuf.rows = (A ++ [row]) ++ ((M ++ [last]) ++ B) := by simpa using hrows
  have hnd : (M.flatten ++ last).Nodup := by
    have := hb.marked.nodup_rows
    rw [hrows₂, List.flatten_append] at this
    have hmid := (List.nodup_append.1 this).2.1
    rw [List.flatten_append] at hmid
    simpa using (List.nodup_append.1 hmid).1
  have hlast' : b.lineBuf.rows[b.lastLine start stop]? = some last := by
    rw [hrows, List.getElem?_append_right (by omega), List.getElem?_append_right
      (by rw [List.length_cons]; omega), List.length_cons]
    have : b.lastLine start stop - A.length - (M.length + 1) = 0 := by omega
    rw [this, List.getElem?_cons_zero]
  have hfirst' : t.rows[b.firstLine start stop]? = some (row ++ last) := by
    rw [hrows', List.getElem?_append_right (by omega), ← hA, Nat.sub_self, List.getElem?_cons_zero]
  have hlen' := congrArg List.length hrows'
  simp only [List.length_append, List.length_cons] at hlen' hlen
  refine ⟨t, last.reverse, M.flatten.reverse, ?_, hm.of_out (by simp), by omega, ?_, fun m => ?_,
    fun m hmem => ⟨hs, ⟨last, hlast', by simpa using hmem⟩, ⟨_, hfirst', ?_⟩⟩, fun i m hon hnot => ?_,
    hbuf⟩
  · rw [removeLines, if_pos hlt, if_neg (by simp), hnum, ← hA]
    exact hdel
  · rw [← List.reverse_append, List.nodup_reverse]
    exact (List.perm_append_comm.nodup_iff).1 hnd
  · have hmem := BTree.mem_flatten_iff hrows₂ (m := m)
    rw [List.flatten_append, List.mem_append] at hmem
    simp only [List.mem_reverse, hremoved]
    rw [show m ∈ last ↔ m ∈ [last].flatten by simp, hmem]
    exact exists_congr fun i => by tauto
  · have : m ∈ last := by simpa using hmem
    simp [this]
  · rw [hremoved] at hnot
    simp only [List.length_append, List.length_singleton] at hnot
    obtain ⟨r, hrow, hmrow⟩ := hon
    rw [hrows] at hrow
    rw [lineAfter_eq]
    obtain hi | hi | hi := Nat.lt_trichotomy i A.length
    · refine ⟨r, ?_, hmrow⟩
      rw [if_pos (by omega), hrows', List.getElem?_append_left hi]
      rwa [List.getElem?_append_left hi] at hrow
    · rw [hi, List.getElem?_append_right le_rfl, Nat.sub_self] at hrow
      obtain rfl : row = r := by simpa using hrow
      exact ⟨row ++ last, by rw [if_pos (by omega), hi, hA, hfirst'], by simp [hmrow]⟩
    · refine ⟨r, ?_, hmrow⟩
      obtain ⟨k, rfl⟩ : ∃ k, i = A.length + (M.length + 1) + (k + 1) :=
        ⟨i - A.length - (M.length + 1) - 1, by omega⟩
      have hidx : A.length + (M.length + 1) + (k + 1) - A.length - (row :: M).length = k + 1 := by
        rw [List.length_cons]
        omega
      rw [List.getElem?_append_right (by omega), List.getElem?_append_right
        (by rw [List.length_cons]; omega), hidx, List.getElem?_cons_succ] at hrow
      have hidx' : A.length + (M.length + 1) + (k + 1) -
          (b.lastLine start stop - b.firstLine start stop) - A.length = k + 1 := by omega
      rw [if_neg (by omega), hrows', List.getElem?_append_right (by omega), hidx',
        List.getElem?_cons_succ, hrow]

theorem removeLines_good (hb : b.Good) (start stop : ℕ)
    (hstamp : b.lineBuf.stamp + (b.lastLine start stop - b.firstLine start stop) < 2 ^ 32) :
    ∃ t moved deleted, removeLines b.lineBuf (startsLine '\n' b.text (min start stop))
      (b.firstLine start stop) (b.lastLine start stop) = some (t, moved, deleted) ∧
      b.Removes t start stop moved deleted := by
  obtain hlt | heq := Nat.lt_or_eq_of_le (b.firstLine_le start stop)
  · cases hs : startsLine '\n' b.text (min start stop) with
    | true => exact removeLines_starts hb hlt hs hstamp
    | false => exact removeLines_inside hb hlt hs hstamp
  · have hlines := hb.lines
    refine ⟨b.lineBuf, [], [], by rw [removeLines, if_neg (by omega)], hb.marked, by omega, by simp,
      fun m => ?_, by simp, fun i m hon _ => ?_, fun _ => rfl⟩
    · simp [not_removed_of_eq heq]
    · rwa [lineAfter_eq, heq, Nat.sub_self, Nat.sub_zero, ite_self]

/-- `moo_text_buffer_delete_range` -/
theorem deleteRange_good (hb : b.Good) {start stop : ℕ} (hstart : start ≤ b.text.length)
    (hstop : stop ≤ b.text.length)
    (hstamp : b.lineBuf.stamp + (b.lastLine start stop - b.firstLine start stop) < 2 ^ 32) :
    ∃ b' moved deleted, b.deleteRange start stop = some (b', moved, deleted) ∧ b'.Good ∧
      b.Deletion b' start stop moved deleted := by
  have horder : (if stop < start then (stop, start) else (start, stop)) =
      (min start stop, max start stop) := by
    split_ifs <;> simp <;> omega
  have hle : min start stop ≤ max start stop := by omega
  have hmax : max start stop ≤ b.text.length := by omega
  have htext := remains_infix '\n' hle hmax
  rw [deleteRange, horder]
  by_cases heq : min start stop = max start stop
  · have hlines : b.firstLine start stop = b.lastLine start stop := by rw [firstLine, lastLine, heq]
    have htext' : b.text = b.text.take (min start stop) ++ b.text.drop (max start stop) := by
      rw [heq, List.take_append_drop]
    refine ⟨b, [], [], by simp only [if_pos heq], hb, htext', fun i m _ hr =>
      absurd hr (not_removed_of_eq hlines), fun i m hon _ => ⟨by simp, by simp, ?_, ?_⟩, by simp⟩
    · rwa [lineAfter_eq, hlines, Nat.sub_self, Nat.sub_zero, ite_self]
    · have := htext i
      rwa [← htext'] at this
  · obtain ⟨t, moved, deleted, hremove, hr⟩ := removeLines_good hb start stop hstamp
    obtain ⟨hnd, -, hdis⟩ := List.nodup_append.1 hr.nodup
    have hlive (m : MarkPtr) (h : m ∈ deleted ∨ m ∈ moved) : (t.mark m).buffer = true := by
      obtain ⟨i, hon, -⟩ := (hr.mem m).1 h
      rw [hr.buffer, hb.marked.live_iff]
      exact ⟨i, hon⟩
    obtain ⟨t', hrun, hm, hrows, hbuf⟩ := BTree.setMarkBuffers_false deleted hnd (by simp)
      (show t.Marked (deleted ++ []) by simpa using hr.marked)
    have hon' (i : ℕ) (m : MarkPtr) (h : t.OnLine i m) : t'.OnLine i m := by
      rwa [BTree.OnLine, hrows]
    have hcount : b.text.count '\n' + b.firstLine start stop =
        (b.text.take (min start stop) ++ b.text.drop (max start stop)).count '\n' +
          b.lastLine start stop := by
      have := congrArg (List.count '\n') (List.take_append_drop (max start stop) b.text)
      rw [List.count_append] at this
      rw [List.count_append, firstLine, lastLine, lineOf, lineOf]
      omega
    have hlines := hr.lines
    refine ⟨⟨_, t'⟩, moved, deleted, ?_, ⟨hm, ?_⟩, rfl, fun i m hon hrem => ?_, fun i m hon hnot => ?_,
      fun m => (hr.mem m).1⟩
    · simp only [if_neg heq, Option.bind_eq_bind]
      have hremove' : removeLines b.lineBuf (startsLine '\n' b.text (min start stop))
        (lineOf '\n' b.text (min start stop)) (lineOf '\n' b.text (max start stop)) =
          some (t, moved, deleted) := hremove
      rw [hremove', Option.bind_some, marksMovedOrDeleted, hrun]
      rfl
    · rw [hrows]
      simp only [lineCount] at hlines ⊢
      omega
    · obtain hdel | hmov := (hr.mem m).2 ⟨i, hon, hrem⟩
      · refine .inl ⟨List.count_eq_one_of_mem hnd hdel, fun hmov => hdis m hdel m hmov rfl, ?_, ?_⟩
        · simp [hbuf, hdel]
        · exact hm.dead m (by simp [hbuf, hdel])
      · obtain ⟨hs, hlast, hfirst⟩ := hr.moved m hmov
        exact .inr ⟨List.count_eq_one_of_mem (List.nodup_append.1 hr.nodup).2.1 hmov,
          fun hdel => hdis m hdel m hmov rfl, hs, hon.unique hb.marked hlast, hon' _ _ hfirst⟩
    · have hmem : ¬ (m ∈ deleted ∨ m ∈ moved) := fun h => by
        obtain ⟨j, hj, hrem⟩ := (hr.mem m).1 h
        exact hnot (hon.unique hb.marked hj ▸ hrem)
      exact ⟨fun h => hmem (.inl h), fun h => hmem (.inr h), hon' _ _ (hr.kept i m hon hnot), htext i⟩

/-! ## Marks -/

theorem addLineMark_good (hb : b.Good) (m : MarkPtr) (line : ℤ)
    (hlt : b.lineBuf.nMarks b.lineBuf.root + 1 < 2 ^ 31) :
    ∃ b', b.addLineMark m line = some b' ∧ b'.Good := by
  rw [addLineMark]
  cases hbuf : (b.lineBuf.mark m).buffer with
  | true => exact ⟨b, rfl, hb⟩
  | false =>
    have hlines := hb.lines
    obtain ⟨i, hi, hlt'⟩ : ∃ i : ℕ, (if line < 0 ∨ b.lineCount ≤ line then 0 else line) = i ∧
        i < b.lineBuf.rows.length := by
      have hpos : 0 < b.lineCount := Nat.succ_pos _
      split_ifs with h
      · exact ⟨0, rfl, by omega⟩
      · exact ⟨line.toNat, by omega, by omega⟩
    obtain ⟨x, hx, hget⟩ := BTree.getData_mem hb.marked hlt'
    obtain ⟨t₁, hset, hm₁, hlines₁, hrows₁, hroot₁, hnone₁, -⟩ :=
      BTree.setMarkBuffer_true hb.marked hbuf
    obtain ⟨t₂, hadd, hm₂, -, hrows₂, -, -⟩ := BTree.addMark_spec hm₁ (hlines₁ ▸ hx) hnone₁ (by omega)
    refine ⟨{ b with lineBuf := t₂ }, ?_, hm₂, ?_⟩
    · simp only [Bool.false_eq_true, if_false, hi, hget, hset, hadd, Option.bind_eq_bind,
        Option.bind_some]
      rfl
    · show t₂.rows.length = b.lineCount
      rw [hrows₂, List.length_set, hrows₁, hlines]

theorem deleteLineMark_good (hb : b.Good) (m : MarkPtr) :
    ∃ b', b.deleteLineMark m = some b' ∧ b'.Good := by
  rw [deleteLineMark]
  cases hbuf : (b.lineBuf.mark m).buffer with
  | false => exact ⟨b, rfl, hb⟩
  | true =>
    obtain ⟨x, hmem, hmx⟩ := (hb.marked.live m hbuf).resolve_left (by simp)
    obtain ⟨i, hx⟩ := List.mem_iff_getElem?.1 hmem
    obtain ⟨t₁, hremove, hm₁, -, hrows₁, -⟩ := BTree.removeMark_spec hb.marked hx hmx
    obtain ⟨t₂, hset, hm₂, -, hrows₂, -⟩ := BTree.setMarkBuffer_false hm₁ (by simp)
    refine ⟨{ b with lineBuf := t₂ }, ?_, hm₂, ?_⟩
    · simp only [if_true, hremove, hset, Option.bind_eq_bind, Option.bind_some]
      rfl
    · show t₂.rows.length = b.lineCount
      rw [hrows₂, hrows₁, List.length_set, hb.lines]

theorem moveLineMark_good (hb : b.Good) (m : MarkPtr) {line : ℤ} (hline : 0 ≤ line) :
    ∃ b', b.run (.move m line) = some b' ∧ b'.Good := by
  obtain ⟨t, hmove, hm, hlines, -⟩ := BTree.moveLineMark_spec hb.marked m line.toNat
  rw [Int.toNat_of_nonneg hline] at hmove
  refine ⟨{ b with lineBuf := t }, by simp [run, hmove], hm, ?_⟩
  show t.rows.length = b.lineCount
  rw [BTree.length_rows, hlines, ← BTree.length_rows, hb.lines]

/-! ## Runs -/

/-- An operation that fits is carried out, and leaves lines and marks in order. -/
theorem run_good (hb : b.Good) {op : MarkOp} (h : b.Fits op) : ∃ b', b.run op = some b' ∧ b'.Good := by
  cases op with
  | insert pos text =>
    obtain ⟨b', hrun, hb', -⟩ := insertText_good hb h.1 h.2.1 h.2.2
    exact ⟨b', hrun, hb'⟩
  | delete start stop =>
    obtain ⟨b', moved, deleted, hrun, hb', -⟩ := deleteRange_good hb h.1 h.2.1 h.2.2
    exact ⟨b', by simp [run, hrun], hb'⟩
  | add m line => exact addLineMark_good hb m line h
  | move m line => exact moveLineMark_good hb m h
  | remove m => exact deleteLineMark_good hb m

end MarkBuffer

/-- Any sequence of operations that fit, on an empty buffer at first. -/
inductive MarkRun : MarkBuffer → Prop
  | new : MarkRun .new
  | step {b b' : MarkBuffer} (op : MarkOp) : MarkRun b → b.Fits op → b.run op = some b' → MarkRun b'

namespace MarkRun

theorem good {b : MarkBuffer} (h : MarkRun b) : b.Good := by
  induction h with
  | new => exact MarkBuffer.new_good
  | step op _ hfits hrun ih =>
    obtain ⟨b'', hrun', hgood⟩ := MarkBuffer.run_good ih hfits
    obtain rfl := Option.some.inj (hrun.symm.trans hrun')
    exact hgood

/-- After any run the line buffer has the lines of the text, each mark of the buffer is on one line
and counted once, the next operation does not fail, and a deletion leaves each mark where it
belongs. -/
theorem marks_agree {b : MarkBuffer} (h : MarkRun b) :
    b.lineBuf.size = b.lineCount ∧
    (∀ m, (b.lineBuf.lines.flatMap b.lineBuf.marksOf).count m =
      if (b.lineBuf.mark m).buffer then 1 else 0) ∧
    b.lineBuf.nMarks b.lineBuf.root = {m | (b.lineBuf.mark m).buffer = true}.ncard ∧
    (∀ op, b.Fits op → ∃ b', b.run op = some b') ∧
    ∀ start stop, b.Fits (.delete start stop) → ∃ b' moved deleted,
      b.deleteRange start stop = some (b', moved, deleted) ∧ b.Deletion b' start stop moved deleted := by
  have hb := h.good
  have hm := hb.marked
  have hflat : b.lineBuf.lines.flatMap b.lineBuf.marksOf = b.lineBuf.rows.flatten := by
    rw [List.flatMap_def, BTree.rows]
    exact congrArg _ (List.map_congr_left fun x hx => hm.stocked.marksOf hx)
  have hlive (m : MarkPtr) : (b.lineBuf.mark m).buffer = true ↔ m ∈ b.lineBuf.rows.flatten := by
    rw [hm.live_iff, List.mem_flatten]
    constructor
    · rintro ⟨i, r, hr, hmr⟩
      exact ⟨r, List.mem_of_getElem? hr, hmr⟩
    · rintro ⟨r, hr, hmr⟩
      obtain ⟨i, hi⟩ := List.mem_iff_getElem?.1 hr
      exact ⟨i, r, hi, hmr⟩
  refine ⟨hm.size_eq.trans hb.lines, fun m => ?_, ?_, fun op hfits => ?_, fun start stop hfits => ?_⟩
  · rw [hflat]
    split_ifs with hbuf
    · exact List.count_eq_one_of_mem hm.nodup_rows ((hlive m).1 hbuf)
    · exact List.count_eq_zero.2 fun hmem => hbuf ((hlive m).2 hmem)
  · have hset : {m | (b.lineBuf.mark m).buffer = true} = (b.lineBuf.rows.flatten.toFinset : Set MarkPtr) := by
      ext m
      simp [hlive]
    rw [hm.nMarks_root, hset, Set.ncard_coe_finset, List.toFinset_card_of_nodup hm.nodup_rows]
  · obtain ⟨b', hrun, -⟩ := MarkBuffer.run_good hb hfits
    exact ⟨b', hrun⟩
  · obtain ⟨b', moved, deleted, hrun, -, hdel⟩ :=
      MarkBuffer.deleteRange_good hb hfits.1 hfits.2.1 hfits.2.2
    exact ⟨b', moved, deleted, hrun, hdel⟩

/-- A mark on the second of two lines, and a deletion across them that moves it to the first. -/
theorem marks_agree_two_lines : ∃ b, MarkRun b ∧ b.text = ['a', '\n', 'b'] ∧ b.lineBuf.OnLine 1 7 ∧
    b.lineBuf.size = 2 ∧ ∃ b' moved deleted, b.deleteRange 1 2 = some (b', moved, deleted) ∧
      b.Deletion b' 1 2 moved deleted :=
  have run : MarkRun _ := .step (.add 7 1) (.step (.insert 0 ['a', '\n', 'b']) .new
    ⟨by decide, by decide, by decide⟩ rfl) (by show _ < _; decide) rfl
  ⟨_, run, rfl, ⟨[7], rfl, by decide⟩, run.marks_agree.1,
    run.marks_agree.2.2.2.2 1 2 ⟨by decide, by decide, by decide⟩⟩

/-- A text of `2 ^ 26 - 1` lines gets no other. -/
theorem insert_line_eq_none {n : ℕ} (hn : n + 2 = 2 ^ 26) :
    ([.insert 0 ('x' :: List.replicate n '\n'), .insert (n + 1) ['\n']] : List MarkOp).foldlM
      MarkBuffer.run .new = none := by
  have hcount : ('x' :: List.replicate n '\n').count '\n' = n := by simp
  have hone : MarkBuffer.new.lineCount = 1 := rfl
  have hstamp : MarkBuffer.new.lineBuf.stamp = 1 := rfl
  obtain ⟨b, hrun, -, htext, -⟩ := MarkBuffer.insertText_good MarkBuffer.new_good
    (Nat.zero_le _) (show MarkBuffer.new.lineCount + ('x' :: List.replicate n '\n').count '\n' < 2 ^ 26 by
      omega) (by omega)
  have hfit := MarkBuffer.insertText_new_countsFit (by decide) hrun
  have htext : b.text = 'x' :: List.replicate n '\n' := htext.trans (by simp [MarkBuffer.new])
  have hfirst : lineOf '\n' b.text (n + 1) = n := by rw [htext, lineOf, List.take_of_length_le (by simp), hcount]
  have hlast : lineOf '\n' (b.text.take (n + 1) ++ ['\n'] ++ b.text.drop (n + 1)) (n + 1 + 1) = n + 1 := by
    rw [htext, List.take_of_length_le (by simp), List.drop_eq_nil_of_le (by simp), List.append_nil, lineOf,
      List.take_of_length_le (by simp), List.count_append, hcount]
    simp
  have hlines : MarkBuffer.insertLines b.lineBuf n (n + 1) = none := by
    have hnone := hfit.insert_eq_none (show 2 ^ 26 - 1 ≤ n + 1 by omega)
    have hnum : ((n + 1 : ℕ) : ℤ) - n = 1 := by omega
    rw [MarkBuffer.insertLines, if_pos (by omega), hnum, BTree.splitLine, BTree.insertRange]
    have htoNat : ((n : ℤ) + 1).toNat = n + 1 := by omega
    simp [htoNat, hnone]
  have hrun₂ : b.insertText (n + 1) ['\n'] = none := by
    simp only [MarkBuffer.insertText, hfirst, List.length_singleton, hlast, hlines, Option.bind_eq_bind,
      Option.bind_none]
  simp [MarkBuffer.run, hrun, hrun₂]

/-- None of `2 ^ 31` marks can be deleted. -/
theorem remove_eq_none {n : ℕ} (hge : 2 ^ 31 ≤ n) (hlt : n < 2 ^ 32) :
    ((List.range n).map (MarkOp.add · 0) ++ [MarkOp.remove 0]).foldlM MarkBuffer.run .new = none := by
  have hadd : ((List.range n).map (MarkOp.add · 0)).foldlM MarkBuffer.run .new =
      some (MarkBuffer.manyMarks n) := by
    rw [List.foldlM_map]
    exact MarkBuffer.addLineMarks_eq hlt
  have hremove : (MarkBuffer.manyMarks n).run (.remove 0) = none :=
    MarkBuffer.deleteLineMark_manyMarks hge hlt
  rw [List.foldlM_append, hadd]
  simp only [Option.bind_eq_bind, Option.bind_some, List.foldlM_cons, hremove, Option.bind_none]

/-- Three runs that end in a failed assertion: a mark moved to the line `-1`, a new line in a text of
`2 ^ 26 - 1` lines, and one of `2 ^ 31` marks deleted. -/
theorem runs_fail :
    ([.add 0 0, .move 0 (-1)] : List MarkOp).foldlM MarkBuffer.run .new = none ∧
    ([.insert 0 ('x' :: List.replicate (2 ^ 26 - 2) '\n'), .insert (2 ^ 26 - 2 + 1) ['\n']] :
      List MarkOp).foldlM MarkBuffer.run .new = none ∧
    ((List.range (2 ^ 31)).map (MarkOp.add · 0) ++ [MarkOp.remove 0]).foldlM MarkBuffer.run .new = none :=
  ⟨rfl, insert_line_eq_none (by decide), remove_eq_none (by decide) (by decide)⟩

end MarkRun

end Medit
