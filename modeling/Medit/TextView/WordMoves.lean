import Mathlib.Logic.Function.Iterate
import Mathlib.Tactic.SplitIfs
import Medit.Library.CharLines

/-!
# Moving the cursor by words

Translation of the word motions of `mooedit/mootextview-input.cpp`. An iterator is the number of
characters before it. Where the cursor may stand is Pango's, and is a parameter, like GLib's classes
of characters.

## Main definitions

* `CursorText` — a text with its cursor positions.
* `MooTextView.forwardWordStart`, `MooTextView.backwardWordStart` — a move by a word.
* `MooTextView.moveCursorWords` — `moo_text_view_move_cursor_words`.
* `MooTextView.stopsBelow` — where moves back can end.
* `MooTextView.MovesRight` — moving by many words is moving many times, and leads to the ends.
* `MooTextView.Reported` — the moves back but the last one report that they have moved.

## Main results

* `MooTextView.word_moves_iff` — moves are right where all of them are reported.
-/

namespace Medit

open CharLines

/-- A text with its cursor positions. They are at the starts and ends of lines, and not between `\r`
and `\n`. -/
structure CursorText where
  chars : List Char
  isCursorPosition : ℕ → Bool
  starts : ∀ p ≤ chars.length, startsLine chars p → isCursorPosition p
  ends : ∀ p ≤ chars.length, endsLine chars p → isCursorPosition p
  inside : ∀ p, chars[p]? = some '\r' → chars[p + 1]? = some '\n' → ¬ isCursorPosition (p + 1)

namespace CursorText

/-- `gtk_text_iter_get_char` -/
def getChar (t : CursorText) (p : ℕ) : Char := t.chars.getD p '\x00'

/-- `gtk_text_iter_is_end` -/
def isEnd (t : CursorText) (p : ℕ) : Bool := t.chars.length ≤ p

/-- `gtk_text_iter_forward_cursor_position` -/
def forwardCursorPosition (t : CursorText) (p : ℕ) : ℕ :=
  if p < t.chars.length then
    if t.isCursorPosition (p + 1) then p + 1 else t.forwardCursorPosition (p + 1)
  else p
termination_by t.chars.length - p

/-- `gtk_text_iter_backward_cursor_position`: the position, if there is one to move to. -/
def backwardCursorPosition (t : CursorText) : ℕ → Option ℕ
  | 0 => none
  | p + 1 => if t.isCursorPosition p then some p else t.backwardCursorPosition p

theorem le_forwardCursorPosition (t : CursorText) (p : ℕ) : p ≤ t.forwardCursorPosition p := by
  fun_induction forwardCursorPosition t p <;> omega

theorem lt_forwardCursorPosition {t : CursorText} {p : ℕ} (hp : ¬ t.isEnd p) :
    p < t.forwardCursorPosition p := by
  have hlt : p < t.chars.length := by simpa [isEnd] using hp
  have hle := t.le_forwardCursorPosition (p + 1)
  rw [forwardCursorPosition, if_pos hlt]
  split_ifs <;> omega

theorem forwardCursorPosition_le {t : CursorText} {p : ℕ} (hp : p ≤ t.chars.length) :
    t.forwardCursorPosition p ≤ t.chars.length := by
  fun_induction forwardCursorPosition t p <;> omega

/-- The position before is the last cursor position in front. -/
theorem backwardCursorPosition_eq_some {t : CursorText} {p q : ℕ} :
    t.backwardCursorPosition p = some q ↔
      q < p ∧ t.isCursorPosition q ∧ ∀ r, q < r → r < p → ¬ t.isCursorPosition r := by
  induction p with
  | zero => simp [backwardCursorPosition]
  | succ p ih =>
    rw [backwardCursorPosition]
    split_ifs with hcursor
    · constructor
      · rintro ⟨⟩
        exact ⟨by omega, hcursor, fun r hqr hrp => by omega⟩
      · rintro ⟨hlt, -, hnone⟩
        by_contra hne
        have hlt' : q < p := by
          have hqp : p ≠ q := fun h => hne (congrArg some h)
          omega
        exact hnone p hlt' (by omega) hcursor
    · rw [ih]
      constructor
      · rintro ⟨hlt, hq, hnone⟩
        refine ⟨by omega, hq, fun r hqr hrp => ?_⟩
        rcases (show r < p ∨ r = p by omega) with hr | rfl
        · exact hnone r hqr hr
        · exact hcursor
      · rintro ⟨hlt, hq, hnone⟩
        have hne : q ≠ p := fun h => hcursor (h ▸ hq)
        exact ⟨by omega, hq, fun r hqr hrp => hnone r hqr (by omega)⟩

/-- Behind the start of the text there is always a position in front. -/
theorem exists_backwardCursorPosition (t : CursorText) {p : ℕ} (hp : 0 < p) :
    ∃ q, t.backwardCursorPosition p = some q := by
  induction p with
  | zero => omega
  | succ p ih =>
    rw [backwardCursorPosition]
    split_ifs with hcursor
    · exact ⟨p, rfl⟩
    · rcases Nat.eq_zero_or_pos p with rfl | hpos
      · exact absurd (t.starts 0 (Nat.zero_le _) rfl) hcursor
      · exact ih hpos

/-- The loops `while (!gtk_text_iter_is_end (iter) && cond)` that go forward, with `moved`. -/
def forwardWhile (t : CursorText) (cond : ℕ → Bool) (p : ℕ) (moved : Bool) : ℕ × Bool :=
  if _h : ¬ t.isEnd p ∧ cond p then t.forwardWhile cond (t.forwardCursorPosition p) true
  else (p, moved)
termination_by t.chars.length - p
decreasing_by
  have hlt := lt_forwardCursorPosition _h.1
  have hp : p < t.chars.length := by simpa [isEnd] using _h.1
  omega

theorem forwardWhile_spec {t : CursorText} (cond : ℕ → Bool) {p : ℕ} (hp : p ≤ t.chars.length)
    (moved : Bool) :
    p ≤ (t.forwardWhile cond p moved).1 ∧ (t.forwardWhile cond p moved).1 ≤ t.chars.length ∧
      ((t.forwardWhile cond p moved).2 = true ↔
        moved = true ∨ p < (t.forwardWhile cond p moved).1) := by
  fun_induction forwardWhile t cond p moved with
  | case1 p moved h ih =>
    have hlt := lt_forwardCursorPosition h.1
    obtain ⟨hle, hend, hmoved⟩ := ih (forwardCursorPosition_le hp)
    refine ⟨by omega, hend, ?_⟩
    simp only [hmoved, true_or, true_iff]
    exact Or.inr (by omega)
  | case2 p moved h => simp [hp]

theorem lt_forwardWhile {t : CursorText} (cond : ℕ → Bool) {p : ℕ} (hp : ¬ t.isEnd p)
    (hcond : cond p) (moved : Bool) : p < (t.forwardWhile cond p moved).1 := by
  have hlt : p < t.chars.length := by simpa [isEnd] using hp
  rw [forwardWhile, dif_pos ⟨hp, hcond⟩]
  exact (lt_forwardCursorPosition hp).trans_le
    (forwardWhile_spec cond (forwardCursorPosition_le hlt.le) true).1

end CursorText

/-- What the motions of a text view depend on: its `word_chars`, and GLib's classes. -/
structure MooTextView where
  wordChars : List Char
  isAlnum : Char → Bool
  isSpace : Char → Bool

namespace MooTextView

variable (v : MooTextView) (t : CursorText)

/-- `iter_is_word_char` -/
def isWordChar (p : ℕ) : Bool :=
  let c := t.getChar p
  v.wordChars.contains c || c == '_' || v.isAlnum c

/-- `iter_is_space` -/
def iterIsSpace (p : ℕ) : Bool := v.isSpace (t.getChar p)

/-- `iter_is_word_start` -/
def isWordStart (p : ℕ) : Bool := v.isWordChar t p && (p == 0 || !v.isWordChar t (p - 1))

/-- `text_iter_forward_word_start` -/
def forwardWordStart (p : ℕ) : ℕ × Bool :=
  if t.isEnd p then (p, false)
  else if v.isWordChar t p then
    let (q, moved) := t.forwardWhile (v.isWordChar t) p false
    if t.isEnd q then (q, false)
    else
      let (r, moved) := t.forwardWhile (fun i => v.iterIsSpace t i && !endsLine t.chars i) q moved
      (r, moved && !t.isEnd r)
  else if endsLine t.chars p then
    let q := t.forwardCursorPosition p
    (q, !t.isEnd q)
  else
    let (q, moved) :=
      t.forwardWhile (fun i => !v.isWordChar t i && !endsLine t.chars i) p false
    (q, moved && !t.isEnd q)

/-- The loop of `text_iter_forward_word_start_n`, where the iterator is left. -/
def forwardLoop : ℕ → ℕ → ℕ
  | 0, p => p
  | count + 1, p =>
    match v.forwardWordStart t p with
    | (q, true) => forwardLoop count q
    | (_, false) => t.chars.length

/-- The loop of `text_iter_backward_word_start` inside a line, with `moved`. -/
def backwardLoop (p : ℕ) (moved : Bool) : ℕ × Bool :=
  match _h : t.backwardCursorPosition p with
  | none => (p, moved)
  | some q => if v.isWordStart t q || startsLine t.chars q then (q, moved) else backwardLoop q true
termination_by p
decreasing_by exact (CursorText.backwardCursorPosition_eq_some.1 _h).1

/-- `text_iter_backward_word_start` -/
def backwardWordStart (p : ℕ) : ℕ × Bool :=
  if startsLine t.chars p then
    match t.backwardCursorPosition p with
    | none => (p, false)
    | some q => (if endsLine t.chars q then q else q - 1, true)
  else v.backwardLoop t p false

/-- The loop of `text_iter_backward_word_start_n`, where the iterator is left. -/
def backwardN : ℕ → ℕ → ℕ
  | 0, p => p
  | count + 1, p =>
    match v.backwardWordStart t p with
    | (q, true) => backwardN count q
    | (q, false) => q

/-- `moo_text_view_move_cursor_words` -/
def moveCursorWords (p : ℕ) (count : ℤ) : ℕ :=
  if count < 0 then v.backwardN t (-count).toNat p
  else if 0 < count then v.forwardLoop t count.toNat p
  else p

/-! ## Forward -/

variable {v t}

theorem forwardWordStart_spec {p : ℕ} (hp : p ≤ t.chars.length) :
    p ≤ (v.forwardWordStart t p).1 ∧ (v.forwardWordStart t p).1 ≤ t.chars.length ∧
      (p < t.chars.length → p < (v.forwardWordStart t p).1) ∧
      ((v.forwardWordStart t p).2 = true ↔ (v.forwardWordStart t p).1 < t.chars.length) := by
  unfold forwardWordStart
  split_ifs with hend hword hline
  · have hlen : t.chars.length ≤ p := by simpa [CursorText.isEnd] using hend
    simp only [le_refl, hp, true_and, false_iff]
    omega
  · have hlt := CursorText.lt_forwardWhile (v.isWordChar t) hend hword false
    obtain ⟨-, hle, hmoved⟩ := CursorText.forwardWhile_spec (v.isWordChar t) hp false
    generalize t.forwardWhile (v.isWordChar t) p false = a at hlt hle hmoved ⊢
    obtain ⟨q, moved⟩ := a
    dsimp only at hlt hle hmoved ⊢
    split_ifs with hq
    · have hlen : t.chars.length ≤ q := by simpa [CursorText.isEnd] using hq
      simp only [false_iff]
      omega
    · obtain ⟨hqr, hr, hmoved'⟩ := CursorText.forwardWhile_spec
        (fun i => v.iterIsSpace t i && !endsLine t.chars i) hle moved
      generalize t.forwardWhile _ q moved = b at hqr hr hmoved' ⊢
      obtain ⟨r, moved'⟩ := b
      dsimp only at hqr hr hmoved' ⊢
      have htrue : moved' = true := hmoved'.2 (Or.inl (hmoved.2 (Or.inr hlt)))
      simp only [htrue, CursorText.isEnd, Bool.true_and, Bool.not_eq_true', decide_eq_false_iff_not]
      omega
  · have hlt := CursorText.lt_forwardCursorPosition hend
    have hle := CursorText.forwardCursorPosition_le hp
    simp only [CursorText.isEnd, Bool.not_eq_true', decide_eq_false_iff_not]
    omega
  · have hlt := CursorText.lt_forwardWhile (fun i => !v.isWordChar t i && !endsLine t.chars i)
      hend (by simp [hword, hline]) false
    obtain ⟨-, hle, hmoved⟩ := CursorText.forwardWhile_spec
      (fun i => !v.isWordChar t i && !endsLine t.chars i) hp false
    generalize t.forwardWhile _ p false = a at hlt hle hmoved ⊢
    obtain ⟨q, moved⟩ := a
    dsimp only at hlt hle hmoved ⊢
    simp only [hmoved.2 (Or.inr hlt), CursorText.isEnd, Bool.true_and, Bool.not_eq_true',
      decide_eq_false_iff_not]
    omega

/-- A move that does not report itself has come to the end of the text. -/
theorem forwardLoop_one {p : ℕ} (hp : p ≤ t.chars.length) :
    v.forwardLoop t 1 p = (v.forwardWordStart t p).1 := by
  obtain ⟨-, hle, -, hflag⟩ := forwardWordStart_spec (v := v) hp
  rw [forwardLoop]
  generalize v.forwardWordStart t p = a at hle hflag ⊢
  obtain ⟨q, _ | _⟩ := a
  · simp only [Bool.false_eq_true, false_iff] at hflag
    dsimp only at hle hflag ⊢
    omega
  · rfl

theorem forwardLoop_length (n : ℕ) : v.forwardLoop t n t.chars.length = t.chars.length := by
  cases n with
  | zero => rfl
  | succ n => simp [forwardLoop, forwardWordStart, CursorText.isEnd]

theorem forwardLoop_eq (n : ℕ) {p : ℕ} (hp : p ≤ t.chars.length) :
    v.forwardLoop t n p = (v.forwardLoop t 1)^[n] p := by
  induction n generalizing p with
  | zero => rfl
  | succ n ih =>
    obtain ⟨-, hle, -, hflag⟩ := forwardWordStart_spec (v := v) hp
    have hone := forwardLoop_one (v := v) hp
    rw [Function.iterate_succ_apply, hone, ← ih hle, forwardLoop]
    generalize v.forwardWordStart t p = a at hle hflag ⊢
    obtain ⟨q, _ | _⟩ := a
    · simp only [Bool.false_eq_true, false_iff] at hflag
      dsimp only at hle hflag ⊢
      obtain rfl : q = t.chars.length := by omega
      exact (forwardLoop_length n).symm
    · rfl

theorem forward_reaches {p : ℕ} (hp : p ≤ t.chars.length) :
    ∃ k, (v.forwardLoop t 1)^[k] p = t.chars.length := by
  induction hrest : t.chars.length - p using Nat.strong_induction_on generalizing p with
  | _ rest ih =>
    rcases hp.eq_or_lt with rfl | hlt
    · exact ⟨0, rfl⟩
    · obtain ⟨-, hle, hmoves, -⟩ := forwardWordStart_spec (v := v) hp
      have hstep := hmoves hlt
      obtain ⟨k, hk⟩ := ih _ (by omega) hle rfl
      refine ⟨k + 1, ?_⟩
      rw [Function.iterate_succ_apply, forwardLoop_one hp, hk]

/-! ## Back -/

variable (v t) in
/-- Where a move back can end: at the starts of words, and at both ends of a line. -/
def isStop (p : ℕ) : Bool :=
  t.isCursorPosition p && (v.isWordStart t p || startsLine t.chars p || endsLine t.chars p)

variable (v t) in
/-- The stops in front of a position, the nearest one first. -/
def stopsBelow (p : ℕ) : List ℕ := ((List.range p).filter (v.isStop t)).reverse

variable (v t) in
/-- The move from a position takes one step of the cursor, inside its line, and does not come to the
start of the text. -/
def StepsOnce (p : ℕ) : Prop :=
  ¬ startsLine t.chars p ∧ ∃ q, t.backwardCursorPosition p = some q ∧ q ≠ 0 ∧
    (v.isWordStart t q ∨ startsLine t.chars q)

/-- The position before the start of a line is the end of the line before it. -/
theorem endsLine_of_back {p q : ℕ} (hp : p ≤ t.chars.length) (hstart : startsLine t.chars p)
    (hback : t.backwardCursorPosition p = some q) : endsLine t.chars q := by
  obtain ⟨hlt, hq, hnone⟩ := CursorText.backwardCursorPosition_eq_some.1 hback
  obtain hends | ⟨hle, hr, hn, hends⟩ := endsLine_of_startsLine (by omega) hstart
  · have hcursor := t.ends (p - 1) (by omega) hends
    obtain rfl : q = p - 1 := by
      by_contra hne
      exact hnone (p - 1) (by omega) (by omega) hcursor
    exact hends
  · have hinside := t.inside (p - 2) hr (by rwa [show p - 2 + 1 = p - 1 by omega])
    have hcursor := t.ends (p - 2) (by omega) hends
    obtain rfl : q = p - 2 := by
      by_contra hne
      rcases (show q < p - 2 ∨ q = p - 1 by omega) with hqlt | rfl
      · exact hnone (p - 2) hqlt (by omega) hcursor
      · exact hinside (by rwa [show p - 2 + 1 = p - 1 by omega])
    exact hends

/-- Between the end of a line and a later position on another line there is the start of a line. -/
theorem exists_startsLine {p r : ℕ} (hp : p ≤ t.chars.length) (hcursor : t.isCursorPosition p)
    (hstart : ¬ startsLine t.chars p) (hr : r < p) (hends : endsLine t.chars r) :
    ∃ s, r < s ∧ s < p ∧ startsLine t.chars s := by
  obtain hnext | ⟨hcr, hlf, hnext⟩ := startsLine_of_endsLine (by omega) hends
  · have hne : p ≠ r + 1 := fun h => hstart (h ▸ hnext)
    exact ⟨r + 1, by omega, by omega, hnext⟩
  · have hne : p ≠ r + 1 := fun h => t.inside r hcr hlf (h ▸ hcursor)
    have hne' : p ≠ r + 2 := fun h => hstart (h ▸ hnext)
    exact ⟨r + 2, by omega, by omega, hnext⟩

theorem backwardLoop_of_some {p q : ℕ} (hback : t.backwardCursorPosition p = some q)
    (moved : Bool) :
    v.backwardLoop t p moved =
      if v.isWordStart t q || startsLine t.chars q then (q, moved)
      else v.backwardLoop t q true := by
  rw [backwardLoop]
  split
  · simp_all
  · simp_all

/-- Inside a line the move goes to the last start of a word or a line in front. It reports itself
unless this is the cursor position before. -/
theorem backwardLoop_spec {p : ℕ} (hstart : ¬ startsLine t.chars p) (moved : Bool) :
    (v.backwardLoop t p moved).1 < p ∧ t.isCursorPosition (v.backwardLoop t p moved).1 ∧
      (v.isWordStart t (v.backwardLoop t p moved).1 ∨
        startsLine t.chars (v.backwardLoop t p moved).1) ∧
      (∀ r, (v.backwardLoop t p moved).1 < r → r < p → t.isCursorPosition r →
        ¬ v.isWordStart t r ∧ ¬ startsLine t.chars r) ∧
      ((v.backwardLoop t p moved).2 = true ↔ moved = true ∨
        t.backwardCursorPosition p ≠ some (v.backwardLoop t p moved).1) := by
  fun_induction backwardLoop v t p moved with
  | case1 p moved hnone =>
    have hpos : 0 < p := Nat.pos_of_ne_zero fun h => hstart (by rw [h]; rfl)
    obtain ⟨q, hq⟩ := t.exists_backwardCursorPosition hpos
    rw [hnone] at hq
    cases hq
  | case2 p moved q hback hstop =>
    obtain ⟨hlt, hq, hnone⟩ := CursorText.backwardCursorPosition_eq_some.1 hback
    exact ⟨hlt, hq, by simpa using hstop, fun r hqr hrp hr => absurd hr (hnone r hqr hrp),
      by simp [hback]⟩
  | case3 p moved q hback hstop ih =>
    obtain ⟨hlt, hq, hnone⟩ := CursorText.backwardCursorPosition_eq_some.1 hback
    simp only [Bool.or_eq_true, not_or] at hstop
    obtain ⟨hlt', hcursor, hstop', hrest, hmoved⟩ := ih hstop.2
    refine ⟨by omega, hcursor, hstop', ?_, ?_⟩
    · intro r hqr hrp hr
      rcases (show r < q ∨ r = q ∨ q < r by omega) with hlow | rfl | hhigh
      · exact hrest r hqr hlow hr
      · exact hstop
      · exact absurd hr (hnone r hhigh hrp)
    · rw [hmoved, hback]
      have hne : q ≠ (v.backwardLoop t q true).1 := by omega
      simp [hne]

/-- A move back goes to the next stop. -/
theorem backwardWordStart_spec {p : ℕ} (hp : p ≤ t.chars.length) (hcursor : t.isCursorPosition p)
    (hpos : 0 < p) :
    (v.backwardWordStart t p).1 < p ∧ v.isStop t (v.backwardWordStart t p).1 ∧
      ∀ r, (v.backwardWordStart t p).1 < r → r < p → ¬ v.isStop t r := by
  unfold backwardWordStart
  split_ifs with hstart
  · obtain ⟨q, hback⟩ := t.exists_backwardCursorPosition hpos
    have hends := endsLine_of_back hp hstart hback
    obtain ⟨hlt, hq, hnone⟩ := CursorText.backwardCursorPosition_eq_some.1 hback
    simp only [hback, hends, if_true]
    refine ⟨hlt, by simp [isStop, hq, hends], ?_⟩
    intro r hqr hrp hstop
    simp only [isStop, Bool.and_eq_true] at hstop
    exact hnone r hqr hrp hstop.1
  · obtain ⟨hlt, hq, hstop, hnone, -⟩ := backwardLoop_spec (v := v) hstart false
    refine ⟨hlt, ?_, ?_⟩
    · simp only [isStop, Bool.and_eq_true, Bool.or_eq_true]
      exact ⟨hq, Or.inl hstop⟩
    · intro r hqr hrp hstop'
      simp only [isStop, Bool.and_eq_true, Bool.or_eq_true] at hstop'
      obtain ⟨hr, hword | hends⟩ := hstop'
      · obtain ⟨hno, hno'⟩ := hnone r hqr hrp hr
        exact hword.elim hno hno'
      · -- behind the end of a line there is a start of a line, where the move would have ended
        obtain ⟨s, hrs, hsp, hs⟩ := exists_startsLine hp hcursor hstart hrp hends
        exact (hnone s (by omega) hsp (t.starts s (by omega) hs)).2 hs

/-- A move back does not report itself where it is a step of the cursor, or at the start. -/
theorem backwardWordStart_flag {p : ℕ} :
    (v.backwardWordStart t p).2 = false ↔
      p = 0 ∨ ¬ startsLine t.chars p ∧
        t.backwardCursorPosition p = some (v.backwardWordStart t p).1 := by
  unfold backwardWordStart
  split_ifs with hstart
  · cases hback : t.backwardCursorPosition p with
    | none =>
      have hzero : p = 0 := by
        by_contra hne
        obtain ⟨q, hq⟩ := t.exists_backwardCursorPosition (Nat.pos_of_ne_zero hne)
        rw [hback] at hq
        cases hq
      simp [hzero]
    | some q =>
      have hne : p ≠ 0 := by
        have hlt := (CursorText.backwardCursorPosition_eq_some.1 hback).1
        omega
      simp [hne, hstart]
  · have hne : p ≠ 0 := fun h => hstart (by rw [h]; rfl)
    obtain ⟨-, -, -, -, hmoved⟩ := backwardLoop_spec (v := v) hstart false
    rw [← Bool.not_eq_true, hmoved]
    simp [hne, hstart]

theorem backwardWordStart_zero : v.backwardWordStart t 0 = (0, false) := rfl

/-- Where the report is missing although the start of the text has not been reached. -/
theorem stepsOnce_iff {p : ℕ} :
    v.StepsOnce t p ↔
      (v.backwardWordStart t p).2 = false ∧ (v.backwardWordStart t p).1 ≠ 0 := by
  rw [backwardWordStart_flag]
  by_cases hstart : startsLine t.chars p
  · have hno : ¬ v.StepsOnce t p := fun h => h.1 hstart
    simp only [hno, hstart, not_true_eq_false, false_and, or_false, false_iff, not_and, not_not]
    rintro rfl
    rfl
  · have hne : p ≠ 0 := fun h => hstart (by rw [h]; rfl)
    have hmove : v.backwardWordStart t p = v.backwardLoop t p false := if_neg hstart
    obtain ⟨hlt, hq, hstop, hnone, -⟩ := backwardLoop_spec (v := v) hstart false
    rw [hmove]
    constructor
    · rintro ⟨-, q, hback, hzero, hstop'⟩
      obtain ⟨hqp, hcursor, hbetween⟩ := CursorText.backwardCursorPosition_eq_some.1 hback
      -- the loop ends at once at a stop
      have heq : (v.backwardLoop t p false).1 = q := by
        rcases lt_trichotomy (v.backwardLoop t p false).1 q with hless | heq | hmore
        · obtain ⟨hno, hno'⟩ := hnone q hless hqp hcursor
          exact (hstop'.elim hno hno').elim
        · exact heq
        · exact absurd hq (hbetween _ hmore hlt)
      rw [heq]
      exact ⟨Or.inr ⟨hstart, hback⟩, hzero⟩
    · rintro ⟨hor, hzero⟩
      exact ⟨hstart, _, (hor.resolve_left hne).2, hzero, hstop⟩

theorem stopsBelow_eq {p : ℕ} (hp : p ≤ t.chars.length) (hcursor : t.isCursorPosition p)
    (hpos : 0 < p) :
    v.stopsBelow t p =
      (v.backwardWordStart t p).1 :: v.stopsBelow t (v.backwardWordStart t p).1 := by
  obtain ⟨hlt, hstop, hnone⟩ := backwardWordStart_spec (v := v) hp hcursor hpos
  generalize (v.backwardWordStart t p).1 = q at hlt hstop hnone ⊢
  obtain ⟨k, rfl⟩ : ∃ k, p = q + 1 + k := ⟨p - (q + 1), by omega⟩
  have hrest : ((List.range k).map (q + 1 + ·)).filter (v.isStop t) = [] := by
    rw [List.filter_eq_nil_iff]
    intro r hr
    obtain ⟨i, hi, rfl⟩ := List.mem_map.1 hr
    have hik := List.mem_range.1 hi
    exact hnone _ (by omega) (by omega)
  rw [stopsBelow, List.range_add, List.filter_append, hrest, List.append_nil, List.range_succ,
    List.filter_append, List.filter_cons_of_pos hstop, List.filter_nil, List.reverse_append]
  rfl

variable (v t) in
/-- Every move back but the last one is longer than a step of the cursor, unless it leaves the line
or reaches the start of the text. -/
def Reported (p n : ℕ) : Prop :=
  ∀ i q, i + 1 < n → (p :: v.stopsBelow t p)[i]? = some q → ¬ v.StepsOnce t q

/-- The positions of single moves back are the stops in front, one after another. -/
theorem reported_succ {p : ℕ} (hp : p ≤ t.chars.length) (hcursor : t.isCursorPosition p)
    (hpos : 0 < p) (n : ℕ) :
    v.Reported t p (n + 1) ↔
      (0 < n → ¬ v.StepsOnce t p) ∧ v.Reported t (v.backwardWordStart t p).1 n := by
  unfold Reported
  rw [stopsBelow_eq hp hcursor hpos]
  constructor
  · intro h
    refine ⟨fun hn => h 0 p (by omega) rfl, fun i q hi hq => h (i + 1) q (by omega) ?_⟩
    simpa using hq
  · rintro ⟨hfirst, hrest⟩ i q hi hq
    cases i with
    | zero =>
      obtain rfl : p = q := by simpa using hq
      exact hfirst (by omega)
    | succ i => exact hrest i q (by omega) (by simpa using hq)

theorem iterate_zero (n : ℕ) : (fun p => (v.backwardWordStart t p).1)^[n] 0 = 0 := by
  induction n with
  | zero => rfl
  | succ n ih => rwa [Function.iterate_succ_apply]

theorem isCursorPosition_back {p : ℕ} (hp : p ≤ t.chars.length) (hcursor : t.isCursorPosition p) :
    t.isCursorPosition (v.backwardWordStart t p).1 := by
  rcases Nat.eq_zero_or_pos p with rfl | hpos
  · exact hcursor
  · have hstop := (backwardWordStart_spec (v := v) hp hcursor hpos).2.1
    simp only [isStop, Bool.and_eq_true] at hstop
    exact hstop.1

theorem back_le {p : ℕ} (hp : p ≤ t.chars.length) (hcursor : t.isCursorPosition p) :
    (v.backwardWordStart t p).1 ≤ p := by
  rcases Nat.eq_zero_or_pos p with rfl | hpos
  · exact le_rfl
  · exact (backwardWordStart_spec hp hcursor hpos).1.le

theorem iterate_le (n : ℕ) {p : ℕ} (hp : p ≤ t.chars.length) (hcursor : t.isCursorPosition p) :
    (fun p => (v.backwardWordStart t p).1)^[n] p ≤ p := by
  induction n generalizing p with
  | zero => exact le_rfl
  | succ n ih =>
    have hle := back_le (v := v) hp hcursor
    exact (ih (hle.trans hp) (isCursorPosition_back hp hcursor)).trans hle

theorem reported_zero (n : ℕ) : v.Reported t 0 n := by
  intro i q hi hq hsteps
  have hlist : v.stopsBelow t 0 = [] := rfl
  cases i with
  | zero =>
    obtain rfl : 0 = q := by simpa using hq
    exact hsteps.1 rfl
  | succ i => simp [hlist] at hq

theorem backwardN_eq_iff (n : ℕ) {p : ℕ} (hp : p ≤ t.chars.length)
    (hcursor : t.isCursorPosition p) :
    v.backwardN t n p = (fun p => (v.backwardWordStart t p).1)^[n] p ↔ v.Reported t p n := by
  induction n generalizing p with
  | zero => simp [backwardN, Reported]
  | succ n ih =>
    rcases Nat.eq_zero_or_pos p with rfl | hpos
    · simp only [iterate_zero, reported_zero, iff_true]
      rfl
    · obtain ⟨hlt, hstop, -⟩ := backwardWordStart_spec (v := v) hp hcursor hpos
      have hcursor' := isCursorPosition_back (v := v) hp hcursor
      have hrest := ih (by omega) hcursor'
      have hsteps := stepsOnce_iff (v := v) (t := t) (p := p)
      rw [reported_succ hp hcursor hpos, Function.iterate_succ_apply, ← hrest, hsteps, backwardN]
      cases hmove : v.backwardWordStart t p with
      | mk q moved =>
        rw [hmove] at hlt hcursor'
        cases moved with
        | true => simp
        | false =>
          -- the loop ends here, so that nothing more may be left to do
          cases n with
          | zero => simp [backwardN]
          | succ n =>
            rcases Nat.eq_zero_or_pos q with rfl | hq
            · rw [iterate_zero]
              simp [backwardN, backwardWordStart_zero]
            · have hless := (backwardWordStart_spec (v := v) (by omega) hcursor' hq).1
              have hle := iterate_le (v := v) n (hless.le.trans (by omega))
                (isCursorPosition_back (by omega) hcursor')
              rw [Function.iterate_succ_apply]
              constructor
              · intro heq
                exact absurd (heq.trans_le hle) hless.not_ge
              · rintro ⟨hno, -⟩
                exact absurd ⟨rfl, hq.ne'⟩ (hno (Nat.succ_pos n))

theorem backward_reaches {p : ℕ} (hp : p ≤ t.chars.length) (hcursor : t.isCursorPosition p) :
    ∃ k, (fun p => (v.backwardWordStart t p).1)^[k] p = 0 := by
  induction p using Nat.strong_induction_on with
  | _ p ih =>
    rcases Nat.eq_zero_or_pos p with rfl | hpos
    · exact ⟨0, rfl⟩
    · have hlt := (backwardWordStart_spec (v := v) hp hcursor hpos).1
      obtain ⟨k, hk⟩ := ih _ hlt (hlt.le.trans hp) (isCursorPosition_back hp hcursor)
      exact ⟨k + 1, hk⟩

/-! ## Moves -/

theorem moveCursorWords_natCast (p n : ℕ) : v.moveCursorWords t p n = v.forwardLoop t n p := by
  unfold moveCursorWords
  split_ifs with hneg hpos
  · omega
  · rfl
  · obtain rfl : n = 0 := by omega
    rfl

theorem moveCursorWords_neg (p n : ℕ) : v.moveCursorWords t p (-n) = v.backwardN t n p := by
  unfold moveCursorWords
  split_ifs with hneg hpos
  · simp
  · omega
  · obtain rfl : n = 0 := by omega
    rfl

theorem moveCursorWords_one (p : ℕ) : v.moveCursorWords t p 1 = v.forwardLoop t 1 p :=
  moveCursorWords_natCast p 1

theorem moveCursorWords_neg_one (p : ℕ) :
    v.moveCursorWords t p (-1) = (v.backwardWordStart t p).1 := by
  refine (moveCursorWords_neg p 1).trans ?_
  rw [backwardN]
  obtain ⟨q, _ | _⟩ := v.backwardWordStart t p <;> rfl

variable (v t) in
/-- Moving by `n` words ends where `n` moves end, a single move goes on, and single moves reach the
end and the start of the text. -/
structure MovesRight (p n : ℕ) : Prop where
  forward : v.moveCursorWords t p n = (fun q => v.moveCursorWords t q 1)^[n] p
  back : v.moveCursorWords t p (-n) = (fun q => v.moveCursorWords t q (-1))^[n] p
  forward_moves : p ≠ t.chars.length → p < v.moveCursorWords t p 1
  back_moves : p ≠ 0 → v.moveCursorWords t p (-1) < p
  forward_reaches : ∃ k, (fun q => v.moveCursorWords t q 1)^[k] p = t.chars.length
  back_reaches : ∃ k, (fun q => v.moveCursorWords t q (-1))^[k] p = 0

/-- The moves by words from a cursor position are right if and only if every move back but the last
is longer than a step of the cursor, or starts at the start of a line, or reaches the start of the
text. -/
theorem word_moves_iff (v : MooTextView) (t : CursorText) {p : ℕ} (hp : p ≤ t.chars.length)
    (hcursor : t.isCursorPosition p) (n : ℕ) : v.MovesRight t p n ↔ v.Reported t p n := by
  have hone : (fun q => v.moveCursorWords t q 1) = v.forwardLoop t 1 :=
    funext moveCursorWords_one
  have hneg : (fun q => v.moveCursorWords t q (-1)) = fun q => (v.backwardWordStart t q).1 :=
    funext moveCursorWords_neg_one
  have hback := backwardN_eq_iff (v := v) n hp hcursor
  rw [← hneg, ← moveCursorWords_neg] at hback
  constructor
  · intro h
    exact hback.1 h.back
  · intro h
    refine ⟨?_, hback.2 h, ?_, ?_, ?_, ?_⟩
    · rw [moveCursorWords_natCast, forwardLoop_eq n hp, hone]
    · intro hne
      rw [moveCursorWords_one, forwardLoop_one hp]
      exact (forwardWordStart_spec hp).2.2.1 (hp.lt_of_ne hne)
    · intro hne
      rw [moveCursorWords_neg_one]
      exact (backwardWordStart_spec hp hcursor (Nat.pos_of_ne_zero hne)).1
    · rw [hone]
      exact forward_reaches hp
    · rw [hneg]
      exact backward_reaches hp hcursor

/-- Two words of a letter, with a cursor position at every character. -/
def twoWords : CursorText where
  chars := ['a', ' ', 'b']
  isCursorPosition := fun _ => true
  starts := fun _ _ _ => rfl
  ends := fun _ _ _ => rfl
  inside := by
    intro p hp
    have hmem := List.mem_of_getElem? hp
    simp at hmem

/-- A view for words of ASCII letters and digits. -/
def asciiView : MooTextView := ⟨[], Char.isAlphanum, Char.isWhitespace⟩

theorem word_moves_two_words : asciiView.MovesRight twoWords 3 1 :=
  (word_moves_iff asciiView twoWords (by decide) rfl 1).2 fun i q hi => by omega

/-- From the end of the text, two words back lead to the start of the second word only. -/
theorem word_moves_stop_early :
    ¬ asciiView.MovesRight twoWords 3 2 ∧ asciiView.moveCursorWords twoWords 3 (-2) = 2 ∧
      asciiView.moveCursorWords twoWords (asciiView.moveCursorWords twoWords 3 (-1)) (-1) = 0 := by
  have hback (p : ℕ) : twoWords.backwardCursorPosition (p + 1) = some p := rfl
  have hfirst : asciiView.backwardWordStart twoWords 3 = (2, false) := by
    rw [backwardWordStart, if_neg (by decide), backwardLoop_of_some (hback 2), if_pos (by decide)]
  have hsecond : asciiView.backwardWordStart twoWords 2 = (0, true) := by
    rw [backwardWordStart, if_neg (by decide), backwardLoop_of_some (hback 1), if_neg (by decide),
      backwardLoop_of_some (hback 0), if_pos (by decide)]
  have htwice : asciiView.moveCursorWords twoWords 3 (-2) = 2 := by
    refine (moveCursorWords_neg 3 2).trans ?_
    rw [backwardN, hfirst]
  have hsingle : asciiView.moveCursorWords twoWords
      (asciiView.moveCursorWords twoWords 3 (-1)) (-1) = 0 := by
    rw [moveCursorWords_neg_one, moveCursorWords_neg_one, hfirst, hsecond]
  refine ⟨fun h => ?_, htwice, hsingle⟩
  have hback : (2 : ℕ) = 0 := htwice.symm.trans (h.back.trans hsingle)
  cases hback

end MooTextView

end Medit
