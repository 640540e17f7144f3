import Mathlib.Data.List.Count
import Mathlib.Data.List.Induction
import Mathlib.Order.Basic
import Mathlib.Algebra.Order.Group.Int
import Medit.Library.Paragraphs

/-!
# Positions

The positions of the language server protocol: a line, and a number of units in it.

## Main definitions

* `iterToPosition`, `positionToIter` — `lsp_iter_to_position` and `lsp_position_to_iter`.

## Main results

* `positionToIter_iterToPosition` — a position comes back to the iterator it is of.
* `iterToPosition_lt` — positions are in the order of the text.
-/

namespace Medit

open Paragraphs

/-- `LspPositionEncoding` -/
inductive LspPositionEncoding where
  | utf8
  | utf16
  | utf32
  deriving DecidableEq, Repr

/-- The units of a character. -/
def LspPositionEncoding.units : LspPositionEncoding → Char → ℕ
  | utf8, c => c.utf8Size
  | utf16, c => if c.toNat ≥ 0x10000 then 2 else 1
  | utf32, _ => 1

/-- A position as the protocol writes it. -/
structure Position where
  line : ℤ
  character : ℤ
  deriving DecidableEq, Repr

/-- The position after one more symbol. -/
def Position.next (encoding : LspPositionEncoding) (p : Position) : Sym → Position
  | .char c _ => { p with character := p.character + encoding.units c }
  | .eol _ => ⟨p.line + 1, 0⟩

/-- `lsp_iter_to_position` of the iterator at the symbol `iter`. -/
def iterToPosition (encoding : LspPositionEncoding) (buffer : List Sym) (iter : ℕ) : Position :=
  (buffer.take iter).foldl (Position.next encoding) ⟨0, 0⟩

/-! ## Finding a position -/

/-- The first symbol of a line, if there are so many lines. -/
def iterAtLine : ℕ → List Sym → Option ℕ
  | 0, _ => some 0
  | _ + 1, [] => none
  | line + 1, s :: S => (iterAtLine (if s.isEol then line else line + 1) S).map (· + 1)

/-- The symbols of a line from its start on, without the end of the line. -/
def toLineEnd : List Sym → ℕ
  | .char .. :: S => toLineEnd S + 1
  | _ => 0

/-- The walk over a line, until enough units have been seen or the line ends. -/
def walkUnits (encoding : LspPositionEncoding) (character : ℤ) : ℤ → List Sym → ℕ
  | units, .char c _ :: S =>
    if units < character then walkUnits encoding character (units + encoding.units c) S + 1 else 0
  | _, _ => 0

/-- `lsp_position_to_iter`; none is that there is no such line. -/
def positionToIter (encoding : LspPositionEncoding) (buffer : List Sym) (p : Position) :
    Option ℕ :=
  match iterAtLine p.line.toNat buffer with
  | none => none
  | some start =>
    if p.character ≤ 0 then some start
    else if encoding = .utf32 then
      if p.character ≥ toLineEnd (buffer.drop start) then
        some (start + toLineEnd (buffer.drop start))
      else some (start + p.character.toNat)
    else some (start + walkUnits encoding p.character 0 (buffer.drop start))

/-! ## Positions of iterators -/

theorem LspPositionEncoding.units_pos (encoding : LspPositionEncoding) (c : Char) :
    0 < encoding.units c := by
  cases encoding with
  | utf8 => exact c.utf8Size_pos
  | utf16 =>
    simp only [units]
    split <;> decide
  | utf32 => exact Nat.one_pos

/-- The order of positions. -/
instance : LT Position := ⟨fun p q => p.line < q.line ∨ p.line = q.line ∧ p.character < q.character⟩

theorem Position.lt_iff {p q : Position} :
    p < q ↔ p.line < q.line ∨ p.line = q.line ∧ p.character < q.character := Iff.rfl

theorem Position.lt_next (encoding : LspPositionEncoding) (p : Position) (s : Sym) :
    p < p.next encoding s := by
  rw [Position.lt_iff]
  cases s with
  | char c _ =>
    have := encoding.units_pos c
    refine .inr ⟨rfl, ?_⟩
    simp only [next]
    omega
  | eol d => exact .inl (Int.lt_succ _)

theorem Position.lt_trans {p q r : Position} (h : p < q) (h' : q < r) : p < r := by
  rw [Position.lt_iff] at *
  omega

theorem lt_foldl_next {encoding : LspPositionEncoding} {S : List Sym} (hS : S ≠ [])
    (p : Position) : p < S.foldl (Position.next encoding) p := by
  induction S generalizing p with
  | nil => exact absurd rfl hS
  | cons s S ih =>
    rcases eq_or_ne S [] with rfl | hne
    · exact p.lt_next encoding s
    · exact Position.lt_trans (p.lt_next encoding s) (ih hne _)

/-- Positions are in the order of the text. -/
theorem iterToPosition_lt {encoding : LspPositionEncoding} {buffer : List Sym} {i j : ℕ}
    (h : i < j) (hj : j ≤ buffer.length) :
    iterToPosition encoding buffer i < iterToPosition encoding buffer j := by
  obtain ⟨k, rfl⟩ : ∃ k, j = i + (k + 1) := ⟨j - i - 1, by omega⟩
  rw [iterToPosition, iterToPosition, List.take_add, List.foldl_append]
  refine lt_foldl_next ?_ _
  simp only [ne_eq, List.take_eq_nil_iff, List.drop_eq_nil_iff]
  omega

/-! ## Positions and iterators -/

section Lines

variable {encoding : LspPositionEncoding}

/-- The symbols in front of an iterator are whole lines and the start of one. -/
theorem exists_line (S : List Sym) : ∃ lines body, S = lines ++ body ∧
    (∀ s ∈ body, s.isEol = false) ∧ (lines = [] ∨ ∃ S' d, lines = S' ++ [.eol d]) := by
  induction S using List.reverseRecOn with
  | nil => exact ⟨[], [], rfl, by simp, .inl rfl⟩
  | append_singleton S s ih =>
    obtain ⟨lines, body, rfl, hbody, hlines⟩ := ih
    cases s with
    | char c h =>
      refine ⟨lines, body ++ [.char c h], by simp, fun s hs => ?_, hlines⟩
      rcases List.mem_append.1 hs with hs | hs
      · exact hbody s hs
      · rw [List.mem_singleton.1 hs]
        rfl
    | eol d => exact ⟨lines ++ body ++ [.eol d], [], by simp, by simp, .inr ⟨_, d, rfl⟩⟩

theorem line_foldl_next (S : List Sym) (p : Position) :
    (S.foldl (Position.next encoding) p).line = p.line + S.countP Sym.isEol := by
  induction S generalizing p with
  | nil => simp
  | cons s S ih =>
    rw [List.foldl_cons, ih, List.countP_cons]
    cases s with
    | char => simp [Position.next, Sym.isEol]
    | eol =>
      simp only [Position.next, Sym.isEol, if_true]
      omega

/-- The position of the start of a line. -/
theorem foldl_next_lines {lines : List Sym} (h : lines = [] ∨ ∃ S' d, lines = S' ++ [.eol d]) :
    lines.foldl (Position.next encoding) ⟨0, 0⟩ = ⟨lines.countP Sym.isEol, 0⟩ := by
  rcases h with rfl | ⟨S', d, rfl⟩
  · rfl
  · rw [List.foldl_append, List.foldl_cons, List.foldl_nil, Position.next, line_foldl_next]
    simp [Sym.isEol]

/-- The symbols of a line do not change its number. -/
theorem foldl_next_body {body : List Sym} (h : ∀ s ∈ body, s.isEol = false) (p : Position) :
    (body.foldl (Position.next encoding) p).line = p.line := by
  have hcount : body.countP Sym.isEol = 0 := List.countP_eq_zero.2 (by simpa using h)
  rw [line_foldl_next, hcount]
  simp

theorem iterAtLine_lines {lines : List Sym} (h : lines = [] ∨ ∃ S' d, lines = S' ++ [.eol d])
    (rest : List Sym) :
    iterAtLine (lines.countP Sym.isEol) (lines ++ rest) = some lines.length := by
  rcases h with rfl | ⟨S', d, rfl⟩
  · simp [iterAtLine]
  · induction S' with
    | nil => simp [iterAtLine, Sym.isEol]
    | cons s S' ih =>
      have hcount : (S' ++ [Sym.eol d]).countP Sym.isEol = S'.countP Sym.isEol + 1 := by
        simp [Sym.isEol]
      rw [hcount, List.append_assoc] at ih
      rw [List.cons_append, List.countP_cons, List.cons_append, hcount]
      cases hs : s.isEol <;> simpa [iterAtLine, hs] using ih

theorem walkUnits_body {body : List Sym} (h : ∀ s ∈ body, s.isEol = false) {p : Position}
    {character : ℤ} (hend : (body.foldl (Position.next encoding) p).character = character)
    (rest : List Sym) : walkUnits encoding character p.character (body ++ rest) = body.length := by
  induction body generalizing p with
  | nil =>
    obtain rfl : p.character = character := hend
    cases rest with
    | nil => rfl
    | cons s rest => cases s <;> simp [walkUnits]
  | cons s body ih =>
    cases s with
    | eol d => simpa [Sym.isEol] using h (.eol d) (by simp)
    | char c hc =>
      have hbody : ∀ s ∈ body, s.isEol = false := fun s hs => h s (by simp [hs])
      have hlt : p.character < character := by
        have hlt := @lt_foldl_next encoding _ (List.cons_ne_nil (Sym.char c hc) body) p
        have hline := @foldl_next_body encoding _ h p
        rw [Position.lt_iff, hend] at hlt
        omega
      have hnext := ih hbody (p := p.next encoding (.char c hc)) hend
      rw [List.cons_append, walkUnits, if_pos hlt, List.length_cons]
      exact congrArg (· + 1) hnext

theorem character_foldl_next_of_utf32 {body : List Sym} (h : ∀ s ∈ body, s.isEol = false)
    (p : Position) :
    (body.foldl (Position.next .utf32) p).character = p.character + body.length := by
  induction body generalizing p with
  | nil => simp
  | cons s body ih =>
    cases s with
    | eol d => simpa [Sym.isEol] using h (.eol d) (by simp)
    | char c hc =>
      rw [List.foldl_cons, ih fun s hs => h s (by simp [hs])]
      simp only [Position.next, LspPositionEncoding.units, List.length_cons]
      omega

theorem length_le_toLineEnd {body : List Sym} (h : ∀ s ∈ body, s.isEol = false)
    (rest : List Sym) : body.length ≤ toLineEnd (body ++ rest) := by
  induction body with
  | nil => simp
  | cons s body ih =>
    cases s with
    | eol d => simpa [Sym.isEol] using h (.eol d) (by simp)
    | char c hc => simpa [toLineEnd] using ih fun s hs => h s (by simp [hs])

end Lines

/-- A position comes back to the iterator it is of. -/
theorem positionToIter_iterToPosition (encoding : LspPositionEncoding) {buffer : List Sym} {i : ℕ}
    (hi : i ≤ buffer.length) :
    positionToIter encoding buffer (iterToPosition encoding buffer i) = some i := by
  obtain ⟨lines, body, htake, hbody, hlines⟩ := exists_line (buffer.take i)
  obtain ⟨rest, rfl⟩ : ∃ rest, buffer = lines ++ (body ++ rest) :=
    ⟨buffer.drop i, by rw [← List.append_assoc, ← htake, List.take_append_drop]⟩
  have hlen : i = lines.length + body.length := by
    rw [← List.length_append, ← htake, List.length_take_of_le hi]
  have hpos : iterToPosition encoding (lines ++ (body ++ rest)) i =
      body.foldl (Position.next encoding) ⟨lines.countP Sym.isEol, 0⟩ := by
    rw [iterToPosition, htake, List.foldl_append, foldl_next_lines hlines]
  have hline : (iterToPosition encoding (lines ++ (body ++ rest)) i).line =
      lines.countP Sym.isEol := by
    rw [hpos, foldl_next_body hbody]
  have hwalk : walkUnits encoding (body.foldl (Position.next encoding)
      ⟨lines.countP Sym.isEol, 0⟩).character 0 (body ++ rest) = body.length :=
    walkUnits_body hbody (p := ⟨lines.countP Sym.isEol, 0⟩) rfl rest
  rw [positionToIter, hline, Int.toNat_natCast, iterAtLine_lines hlines]
  simp only [hpos, List.drop_left]
  split_ifs with hzero hutf hlong
  · cases body with
    | nil => simp [hlen]
    | cons s body =>
      have hlt := @lt_foldl_next encoding _ (List.cons_ne_nil s body)
        ⟨lines.countP Sym.isEol, 0⟩
      rw [Position.lt_iff, foldl_next_body hbody] at hlt
      simp only [lt_irrefl, false_or] at hlt
      omega
  · have hle := length_le_toLineEnd hbody rest
    rw [hutf, character_foldl_next_of_utf32 hbody] at hlong
    simp only at hlong
    exact congrArg some (by omega)
  · rw [hutf, character_foldl_next_of_utf32 hbody]
    simp only
    exact congrArg some (by omega)
  · rw [hwalk, hlen]

end Medit
