import Mathlib.Algebra.Group.Nat.Defs
import Mathlib.Algebra.GroupWithZero.Nat
import Mathlib.Algebra.Ring.Int.Defs
import Medit.Library.CString
import Medit.Library.Utf8

/-!
# Fuzzy matching

Translation of `mooutils/moofuzzy.cpp`: whether the characters of a pattern occur in a text in their
order, with a score for where they do. GLib's tables of characters are a parameter.

## Main definitions

* `fuzzyBounds` — the window of the text that is scored: a pass forward and a pass back.
* `fuzzyRow`, `fuzzyRows` — the table of scores, a row for each character of the pattern.
* `fuzzyTraceback` — the positions, read back from the table.
* `fuzzyMatch` — `moo_fuzzy_match`, with the check of the bytes before it.
-/

namespace Medit

/-- GLib's functions on characters. -/
structure Unichar where
  isSpace : Char → Bool
  isLower : Char → Bool
  isUpper : Char → Bool
  isDigit : Char → Bool
  toLower : Char → Char

/-- `MAX_PATTERN_LEN` -/
def maxPatternLen : ℕ := 256

/-- `MAX_TEXT_LEN` -/
def maxTextLen : ℕ := 4096

/-- `MOO_FUZZY_MAX_POSITIONS` -/
def fuzzyMaxPositions : ℕ := 32

def scoreMatch : ℤ := 16
def scoreGapStart : ℤ := -3
def scoreGapExt : ℤ := -1
def bonusBoundary : ℤ := scoreMatch / 2
def bonusBoundaryWhite : ℤ := bonusBoundary + 2
def bonusBoundaryDelim : ℤ := bonusBoundary + 1
def bonusNonWord : ℤ := scoreMatch / 2
def bonusCamel123 : ℤ := bonusBoundary + scoreGapExt
def bonusConsecutive : ℤ := -(scoreGapStart + scoreGapExt)
def bonusFirstCharMult : ℤ := 2

/-- `NEG_INF`, which is `INT_MIN / 2`. -/
def negInf : ℤ := -2 ^ 31 / 2

inductive CharClass
  | white | delim | nonWord | lower | upper | number
deriving DecidableEq

def classify (u : Unichar) (c : Char) : CharClass :=
  if u.isSpace c then .white
  else if c = '/' ∨ c = ':' ∨ c = ';' ∨ c = ',' ∨ c = '|' then .delim
  else if u.isLower c then .lower
  else if u.isUpper c then .upper
  else if u.isDigit c then .number
  else .nonWord

def isWordClass (c : CharClass) : Bool := c = .lower || c = .upper || c = .number

def bonusFor (prev cur : CharClass) : ℤ :=
  if isWordClass cur ∧ prev = .white then bonusBoundaryWhite
  else if isWordClass cur ∧ prev = .delim then bonusBoundaryDelim
  else if isWordClass cur ∧ prev = .nonWord then bonusBoundary
  else if (prev = .lower ∧ cur = .upper) ∨ (prev ≠ .number ∧ cur = .number) then bonusCamel123
  else if cur = .nonWord ∨ cur = .delim then bonusNonWord
  else 0

def charsEqual (u : Unichar) (caseSensitive : Bool) (a b : Char) : Bool :=
  if caseSensitive then a == b else u.toLower a == u.toLower b

/-! ## The window -/

section Bounds

variable {α : Type*} (eq : α → α → Bool)

/-- The loop forward of `fuzzy_bounds`, with what is left of the pattern and of the text, and `ti`:
`last_idx`, or nothing where it stays -1. -/
def scanForward : List α → List α → ℕ → Option ℕ
  | p :: ps, c :: cs, ti =>
    if eq p c then
      if ps = [] then some (ti + 1) else scanForward ps cs (ti + 1)
    else scanForward (p :: ps) cs (ti + 1)
  | _, _, _ => none

/-- The inner loop back, from the position below `n`: where it stops, or nothing where it leaves the
text. -/
def seekBack (p : α) (text : List α) : ℕ → Option ℕ
  | 0 => none
  | start + 1 =>
    match text[start]? with
    | none => none
    | some c => if eq p c then some start else seekBack p text start

/-- The loop back, with what is left of the pattern from its end. -/
def scanBack (text : List α) : List α → ℕ → Option ℕ
  | [], _ => none
  | [p], n => seekBack eq p text n
  | p :: ps, n => (seekBack eq p text n).bind (scanBack text ps)

/-- `fuzzy_bounds`: nothing inside where there is no match, and nothing at all where the text is
read outside of its ends. -/
def fuzzyBounds (pattern text : List α) : Option (Option (ℕ × ℕ)) :=
  match scanForward eq pattern text 0 with
  | none => some none
  | some lastIdx =>
    (scanBack eq text pattern.reverse lastIdx).map fun start => some (start, lastIdx)

end Bounds

/-! ## The check of the bytes -/

/-- `str_is_ascii` on a string without zero bytes: its length. -/
def strIsAscii (s : List UInt8) : Option ℕ := if s.all (· < 0x80) then some s.length else none

/-- `is_ascii_subsequence` -/
def isAsciiSubsequence (caseSensitive : Bool) : List UInt8 → List UInt8 → Bool
  | [], _ => true
  | _ :: _, [] => false
  | p :: ps, c :: cs =>
    if (if caseSensitive then p else CString.toLower p) =
        (if caseSensitive then c else CString.toLower c)
    then isAsciiSubsequence caseSensitive ps cs
    else isAsciiSubsequence caseSensitive (p :: ps) cs

/-- `g_ascii_isupper` -/
def asciiIsUpper (c : UInt8) : Bool := 65 ≤ c && c ≤ 90

/-- Whether the check of the bytes ends the search. -/
def asciiRejects (pattern text : List UInt8) : Bool :=
  match strIsAscii pattern, strIsAscii text with
  | some plen, some tlen =>
    if maxPatternLen < plen ∨ maxTextLen < tlen ∨ tlen < plen then true
    else !isAsciiSubsequence (pattern.any asciiIsUpper) pattern text
  | _, _ => false

/-! ## The scores -/

/-- A cell of the table: its `H`, `C` and `pos`. -/
structure FuzzyCell where
  score : ℤ
  run : ℕ
  pos : ℤ
deriving DecidableEq

/-- The first cell of a row. -/
def FuzzyCell.none : FuzzyCell := ⟨negInf, 0, -1⟩

/-- A cell of `H` and `C` before the first row. -/
def FuzzyCell.zero : FuzzyCell := ⟨0, 0, -1⟩

/-- `d_score`, `d_consec` and `d_pos` in the column after `tj`. -/
def fuzzyDiagonal (eq : Char → Char → Bool) (first : Bool) (p : Char) (tj : ℕ)
    (diagonal : FuzzyCell) (c : Char) (posBonus : ℤ) : FuzzyCell :=
  if negInf / 2 < diagonal.score ∧ eq p c then
    let bonus := if first then posBonus * bonusFirstCharMult else posBonus
    let (consec, consecBonus) :=
      if 0 < diagonal.run then (diagonal.run + 1, bonusConsecutive) else (1, 0)
    ⟨diagonal.score + scoreMatch + bonus + consecBonus, consec, tj⟩
  else .none

/-- `gap_score` -/
def fuzzyGap (left : FuzzyCell) : ℤ :=
  if negInf / 2 < left.score then
    left.score + if 0 < left.run then scoreGapStart else scoreGapExt
  else negInf

/-- A cell of the table, from its `d_score` and the cell to the left. -/
def fuzzyCell (d left : FuzzyCell) : FuzzyCell :=
  if fuzzyGap left ≤ d.score then d else ⟨fuzzyGap left, 0, left.pos⟩

/-- The loop over the columns after `tj`, with the row before from the column `tj`, what is left of
the window with its `pos_bonus`, and `best_score` with `best_j`. -/
def fuzzyRow (eq : Char → Char → Bool) (first last : Bool) (p : Char) :
    ℕ → List FuzzyCell → List (Char × ℤ) → FuzzyCell → ℤ × ℕ → List FuzzyCell × (ℤ × ℕ)
  | tj, diagonal :: prev, (c, posBonus) :: window, left, best =>
    let d := fuzzyDiagonal eq first p tj diagonal c posBonus
    let cell := fuzzyCell d left
    let best := if last ∧ negInf / 2 < d.score ∧ best.1 < d.score then (d.score, tj + 1) else best
    let rest := fuzzyRow eq first last p (tj + 1) prev window cell best
    (cell :: rest.1, rest.2)
  | _, _, _, _, best => ([], best)

/-- The loop over the pattern, with the rows so far, the last one first. -/
def fuzzyRows (eq : Char → Char → Bool) (window : List (Char × ℤ)) :
    Bool → List Char → List (List FuzzyCell) → List FuzzyCell → ℤ × ℕ →
      List (List FuzzyCell) × (ℤ × ℕ)
  | _, [], rows, _, best => (rows, best)
  | first, p :: ps, rows, prev, best =>
    let (cells, best) := fuzzyRow eq first (ps = []) p 0 prev window .none best
    fuzzyRows eq window false ps ((.none :: cells) :: rows) (.none :: cells) best

/-- The loop over the positions, from the last one: nothing where it reads outside of the table. -/
def fuzzyTraceback (lo : ℕ) : List (List FuzzyCell) → ℕ → Option (List ℤ)
  | [], _ => some []
  | row :: rows, col =>
    row[col]?.bind fun cell =>
      (fuzzyTraceback lo rows (cell.pos + 1).toNat).map fun positions =>
        (cell.pos + lo) :: positions

/-- The classes before and at each character of the window make its `pos_bonus`. -/
def posBonuses (u : Unichar) : CharClass → List Char → List (Char × ℤ)
  | _, [] => []
  | prev, c :: cs => (c, bonusFor prev (classify u c)) :: posBonuses u (classify u c) cs

/-! ## The match -/

/-- How `moo_fuzzy_match` ends: with a read outside of the text or the table, with FALSE, with the
FALSE after the scores, or with a match. -/
inductive FuzzyAnswer
  | outside
  | no
  | unreachable
  | found (score : ℤ) (positions : List ℤ)
deriving DecidableEq

/-- The scores of the window and the positions, if they are wanted. -/
def fuzzyScore (u : Unichar) (eq : Char → Char → Bool) (pattern text : List Char) (lo hi : ℕ)
    (wantPositions : Bool) : FuzzyAnswer :=
  let prevClass := (text.take lo).getLast?.elim .white (classify u)
  let window := posBonuses u prevClass ((text.take hi).drop lo)
  let (rows, bestScore, bestJ) := fuzzyRows eq window true pattern []
    (List.replicate (window.length + 1) .zero) (negInf, 0)
  if bestScore ≤ negInf / 2 then .unreachable
  else if wantPositions then
    match fuzzyTraceback lo rows bestJ with
    | none => .outside
    | some positions => .found bestScore (positions.reverse.take fuzzyMaxPositions)
  else .found bestScore []

/-- `moo_fuzzy_match` on the characters. -/
def fuzzyMatchChars (u : Unichar) (pattern text : List Char) (wantPositions : Bool) : FuzzyAnswer :=
  if maxPatternLen < pattern.length ∨ maxTextLen < text.length ∨ text.length < pattern.length
  then .no
  else
    let eq := charsEqual u (pattern.any u.isUpper)
    match fuzzyBounds eq pattern text with
    | none => .outside
    | some none => .no
    | some (some (lo, hi)) => fuzzyScore u eq pattern text lo hi wantPositions

/-- `moo_fuzzy_match` on the characters of two C strings. -/
def fuzzyMatch (u : Unichar) (pattern text : List Char) (wantPositions : Bool) : FuzzyAnswer :=
  if pattern = [] then .found 0 []
  else if asciiRejects (Utf8.encode pattern) (Utf8.encode text) then .no
  else fuzzyMatchChars u pattern text wantPositions

end Medit
