import Medit.Lsp.Position

/-!
# Positions and units

Every iterator of a buffer, the ones between the `\r` and the `\n` of one line end with it, as a
position and back, and the iterator of a line that a number of units leads to.

## Main definitions

* `Iter` — an iterator of a buffer.
* `Iter.position` — `lsp_iter_to_position`.

## Main results

* `positionToIter_position` — a position comes back to the iterator it is of, and inside a line end
  to the start of that line end; a number of units leads to the first iterator with as many.
-/

namespace Medit

open Paragraphs

/-- An iterator is in front of a symbol, or inside of a line end `\r\n`. -/
structure Iter (buffer : List Sym) where
  sym : ℕ
  inside : Bool
  le : sym ≤ buffer.length
  crlf : inside → buffer[sym]? = some (.eol .crlf)

/-- The number of characters in front of an iterator. -/
def Iter.offset {buffer : List Sym} (iter : Iter buffer) : ℕ :=
  charOffset buffer iter.sym + if iter.inside then 1 else 0

/-- `lsp_iter_to_position`. The `\r` is one unit. -/
def Iter.position (encoding : LspPositionEncoding) {buffer : List Sym} (iter : Iter buffer) :
    Position :=
  let p := iterToPosition encoding buffer iter.sym
  if iter.inside then { p with character := p.character + encoding.units '\r' } else p

/-- `gtk_text_iter_ends_line` in front of a symbol. -/
def EndsLine (buffer : List Sym) (i : ℕ) : Prop := ∀ s ∈ buffer[i]?, s.isEol

/-! ## The units of a line -/

section Lines

variable (encoding : LspPositionEncoding)

theorem line_iterToPosition (buffer : List Sym) (i : ℕ) :
    (iterToPosition encoding buffer i).line = (buffer.take i).countP Sym.isEol := by
  rw [iterToPosition, line_foldl_next]
  simp

/-- The start of a line that is inside of the text. -/
theorem iterAtLine_spec (buffer : List Sym) {line : ℕ} (hline : line ≤ buffer.countP Sym.isEol) :
    ∃ start ≤ buffer.length, iterAtLine line buffer = some start ∧
      (buffer.take start).countP Sym.isEol = line ∧
      (buffer.take start = [] ∨ ∃ S d, buffer.take start = S ++ [.eol d]) := by
  induction buffer generalizing line with
  | nil =>
    obtain rfl : line = 0 := by simpa using hline
    exact ⟨0, le_rfl, rfl, rfl, .inl rfl⟩
  | cons s buffer ih =>
    cases line with
    | zero => exact ⟨0, Nat.zero_le _, rfl, rfl, .inl rfl⟩
    | succ line =>
      obtain ⟨start, hle, hat, hcount, hlast⟩ := @ih (if s.isEol then line else line + 1) (by
        rw [List.countP_cons] at hline
        split_ifs at hline ⊢ <;> omega)
      refine ⟨start + 1, Nat.succ_le_succ hle, by simp [iterAtLine, hat], ?_, .inr ?_⟩
      · rw [List.take_succ_cons, List.countP_cons, hcount]
        split_ifs <;> omega
      · rw [List.take_succ_cons]
        rcases hlast with hnil | ⟨S, d, hS⟩
        · rw [hnil] at hcount ⊢
          cases s with
          | char => simp [Sym.isEol] at hcount
          | eol d => exact ⟨[], d, rfl⟩
        · exact ⟨s :: S, d, by rw [hS, List.cons_append]⟩

/-- An earlier iterator of a line is behind its start. -/
theorem start_le_of_line_eq {buffer : List Sym} {start : ℕ} (hstart : start ≤ buffer.length)
    (hlast : buffer.take start = [] ∨ ∃ S d, buffer.take start = S ++ [.eol d]) {j : ℕ}
    (hj : (buffer.take j).countP Sym.isEol = (buffer.take start).countP Sym.isEol) :
    start ≤ j := by
  by_contra hlt
  rcases hlast with hnil | ⟨S, d, hS⟩
  · simp at hnil
    rcases hnil with rfl | rfl
    · omega
    · simp at hstart
      omega
  · have hlen : start = S.length + 1 := by
      have := congrArg List.length hS
      simpa [hstart] using this
    have htake : buffer.take j = S.take j := by
      have h : (buffer.take start).take j = buffer.take j := by
        rw [List.take_take, min_eq_left (by omega)]
      rw [← h, hS, List.take_append_of_le_length (by omega)]
    have hle := (List.take_sublist j S).countP_le (p := Sym.isEol)
    rw [htake, hS, List.countP_append] at hj
    simp [Sym.isEol] at hj
    omega

/-- The characters of a line, after some of which the walk over it ends. -/
theorem walkUnits_spec (character : ℤ) (p : Position) (S : List Sym) :
    walkUnits encoding character p.character S ≤ toLineEnd S ∧
    (∀ j < walkUnits encoding character p.character S,
      ((S.take j).foldl (Position.next encoding) p).character < character) ∧
    (character ≤ ((S.take (walkUnits encoding character p.character S)).foldl
        (Position.next encoding) p).character ∨
      walkUnits encoding character p.character S = toLineEnd S) := by
  induction S generalizing p with
  | nil => exact ⟨le_rfl, by simp [walkUnits], .inr rfl⟩
  | cons s S ih =>
    cases s with
    | eol d => exact ⟨le_rfl, by simp [walkUnits], .inr rfl⟩
    | char c h =>
      rw [walkUnits, toLineEnd]
      by_cases hlt : p.character < character
      · obtain ⟨hle, hbefore, hend⟩ := ih (p.next encoding (.char c h))
        rw [if_pos hlt]
        refine ⟨Nat.succ_le_succ hle, fun j hj => ?_, hend.imp id (congrArg (· + 1))⟩
        cases j with
        | zero => exact hlt
        | succ j => exact hbefore j (by simpa [Position.next] using hj)
      · rw [if_neg hlt]
        exact ⟨Nat.zero_le _, by simp, .inl (not_lt.1 hlt)⟩

theorem isEol_of_lt_toLineEnd {S : List Sym} {j : ℕ} (hj : j ≤ toLineEnd S) :
    ∀ s ∈ S.take j, s.isEol = false := by
  induction S generalizing j with
  | nil => simp
  | cons s S ih =>
    cases s with
    | eol d =>
      obtain rfl : j = 0 := Nat.le_zero.1 hj
      simp
    | char c h =>
      cases j with
      | zero => simp
      | succ j =>
        rw [List.take_succ_cons]
        exact List.forall_mem_cons.2 ⟨rfl, ih (Nat.le_of_succ_le_succ hj)⟩

theorem toLineEnd_le_length (S : List Sym) : toLineEnd S ≤ S.length := by
  induction S with
  | nil => exact le_rfl
  | cons s S ih =>
    cases s with
    | eol d => exact Nat.zero_le _
    | char c h => exact Nat.succ_le_succ ih

/-- The end of a line is before all that is in the lines behind it. -/
theorem line_lt_of_isEol {buffer : List Sym} {i j : ℕ} {s : Sym} (hs : buffer[i]? = some s)
    (heol : s.isEol) (hij : i < j) :
    (iterToPosition encoding buffer i).line < (iterToPosition encoding buffer j).line := by
  have hnext : (buffer.take (i + 1)).countP Sym.isEol = (buffer.take i).countP Sym.isEol + 1 := by
    rw [List.take_add_one, hs, List.countP_append]
    simp [heol]
  have hle : (buffer.take (i + 1)).countP Sym.isEol ≤ (buffer.take j).countP Sym.isEol := by
    have h := (List.take_sublist (i + 1) (buffer.take j)).countP_le (p := Sym.isEol)
    rwa [List.take_take, min_eq_left hij] at h
  rw [line_iterToPosition, line_iterToPosition]
  omega

theorem endsLine_toLineEnd (S : List Sym) : EndsLine S (toLineEnd S) := by
  induction S with
  | nil => simp [EndsLine]
  | cons s S ih =>
    cases s with
    | eol d => simp [EndsLine, toLineEnd, Sym.isEol]
    | char c h => simpa [EndsLine, toLineEnd] using ih

/-- The position of an iterator that is `j` characters behind the start of its line. -/
theorem iterToPosition_start_add {buffer : List Sym} {start : ℕ}
    (hlast : buffer.take start = [] ∨ ∃ S d, buffer.take start = S ++ [.eol d]) (j : ℕ) :
    iterToPosition encoding buffer (start + j) = ((buffer.drop start).take j).foldl
      (Position.next encoding) ⟨(buffer.take start).countP Sym.isEol, 0⟩ := by
  rw [iterToPosition, List.take_add, List.foldl_append, foldl_next_lines hlast]

/-- The characters that `lsp_position_to_iter` goes into a line, in any encoding. -/
theorem positionToIter_spec {buffer : List Sym} {line start : ℕ}
    (hat : iterAtLine line buffer = some start) (number : ℤ) :
    ∃ k ≤ toLineEnd (buffer.drop start),
      positionToIter encoding buffer ⟨line, number⟩ = some (start + k) ∧
      (∀ j < k, (((buffer.drop start).take j).foldl (Position.next encoding)
        ⟨line, 0⟩).character < number) ∧
      (number ≤ (((buffer.drop start).take k).foldl (Position.next encoding)
        ⟨line, 0⟩).character ∨ k = toLineEnd (buffer.drop start)) := by
  set S := buffer.drop start with hS
  rw [positionToIter]
  simp only [Int.toNat_natCast, hat, ← hS]
  split_ifs with hzero hutf hlong
  · exact ⟨0, Nat.zero_le _, rfl, by simp, .inl hzero⟩
  · refine ⟨toLineEnd S, le_rfl, rfl, fun j hj => ?_, .inr rfl⟩
    rw [hutf, character_foldl_next_of_utf32 (isEol_of_lt_toLineEnd hj.le)]
    simp only [List.length_take]
    omega
  · have hk : number.toNat ≤ toLineEnd S := by omega
    refine ⟨number.toNat, hk, rfl, fun j hj => ?_, .inl ?_⟩
    · rw [hutf, character_foldl_next_of_utf32 (isEol_of_lt_toLineEnd (by omega))]
      simp only [List.length_take]
      omega
    · have hlen := toLineEnd_le_length S
      rw [hutf, character_foldl_next_of_utf32 (isEol_of_lt_toLineEnd hk)]
      simp only [List.length_take]
      omega
  · obtain ⟨hle, hbefore, hend⟩ := walkUnits_spec encoding number ⟨line, 0⟩ S
    exact ⟨_, hle, rfl, hbefore, hend⟩

/-- In a line that is inside of the text, a number of units leads to the first iterator in front of
which there are as many, or to the end of the line. -/
theorem positionToIter_units (buffer : List Sym) {line : ℕ} (hline : line ≤ buffer.countP Sym.isEol)
    (number : ℤ) : ∃ i ≤ buffer.length,
      positionToIter encoding buffer ⟨line, number⟩ = some i ∧
      (iterToPosition encoding buffer i).line = line ∧
      (∀ j < i, (iterToPosition encoding buffer j).line = line →
        (iterToPosition encoding buffer j).character < number) ∧
      (number ≤ (iterToPosition encoding buffer i).character ∨ EndsLine buffer i) := by
  obtain ⟨start, hstart, hat, hcount, hlast⟩ := iterAtLine_spec buffer hline
  obtain ⟨k, hk, heq, hbefore, hend⟩ := positionToIter_spec encoding hat number
  have hlen := toLineEnd_le_length (buffer.drop start)
  rw [List.length_drop] at hlen
  have hadd := iterToPosition_start_add encoding hlast
  rw [hcount] at hadd
  refine ⟨start + k, by omega, heq, ?_, fun j hj hline => ?_, ?_⟩
  · rw [hadd, foldl_next_body (isEol_of_lt_toLineEnd hk)]
  · have hle : start ≤ j := start_le_of_line_eq hstart hlast (by
      rw [line_iterToPosition] at hline
      omega)
    obtain ⟨j', rfl⟩ := Nat.exists_eq_add_of_le hle
    rw [hadd]
    exact hbefore j' (by omega)
  · rw [hadd]
    refine hend.imp id fun hkend => ?_
    have hline := endsLine_toLineEnd (buffer.drop start)
    rwa [← hkend, EndsLine, List.getElem?_drop] at hline

end Lines

/-- Every iterator comes back from its position, and from inside a line end to its start; and in
every line that is inside of the text, a number of units leads to the first iterator in front of
which there are as many, or to the end of the line. -/
theorem positionToIter_position (encoding : LspPositionEncoding) (buffer : List Sym) :
    (∀ iter : Iter buffer,
      positionToIter encoding buffer (iter.position encoding) = some iter.sym) ∧
    ∀ (line : Fin (buffer.countP Sym.isEol + 1)) (number : ℤ), ∃ i ≤ buffer.length,
      positionToIter encoding buffer ⟨line, number⟩ = some i ∧
      (iterToPosition encoding buffer i).line = line ∧
      (∀ j < i, (iterToPosition encoding buffer j).line = line →
        (iterToPosition encoding buffer j).character < number) ∧
      (number ≤ (iterToPosition encoding buffer i).character ∨ EndsLine buffer i) := by
  have hunits (line : Fin (buffer.countP Sym.isEol + 1)) :=
    positionToIter_units encoding buffer (Nat.le_of_lt_succ line.2)
  refine ⟨fun iter => ?_, hunits⟩
  cases hinside : iter.inside with
  | false =>
    rw [Iter.position, hinside]
    exact positionToIter_iterToPosition encoding iter.le
  | true =>
    have hcrlf := iter.crlf hinside
    have hcount : (buffer.take iter.sym).countP Sym.isEol < buffer.countP Sym.isEol + 1 :=
      Nat.lt_succ_of_le ((List.take_sublist iter.sym buffer).countP_le (p := Sym.isEol))
    have hline := line_iterToPosition encoding buffer iter.sym
    set p := iterToPosition encoding buffer iter.sym with hp
    obtain ⟨i, hi, heq, hiline, -, hend⟩ := hunits ⟨_, hcount⟩ (p.character + encoding.units '\r')
    have hposition : iter.position encoding =
        ⟨((buffer.take iter.sym).countP Sym.isEol : ℕ), p.character + encoding.units '\r'⟩ := by
      rw [Iter.position, hinside, ← hp, ← hline]
      rfl
    rw [hposition, heq]
    simp only at hiline
    rcases Nat.lt_trichotomy i iter.sym with hlt | rfl | hlt
    · -- an earlier iterator has less units in front of it and does not end the line
      have hless := @iterToPosition_lt encoding _ _ _ hlt iter.le
      rw [Position.lt_iff, ← hp] at hless
      rcases hend with hend | hend
      · omega
      · obtain ⟨s, hs⟩ : ∃ s, buffer[i]? = some s :=
          ⟨_, List.getElem?_eq_getElem (hlt.trans_le iter.le)⟩
        have := line_lt_of_isEol encoding hs (hend s hs) hlt
        rw [← hp] at this
        omega
    · rfl
    · have := line_lt_of_isEol encoding hcrlf rfl hlt
      rw [← hp] at this
      omega

/-- Between the `\r` and the `\n` of the only line end: the position is the one of no other
iterator, and leads in front of the `\r`. -/
theorem positionToIter_inside_crlf : ∃ iter : Iter [.eol .crlf], iter.offset = 1 ∧
    ∀ encoding : LspPositionEncoding, iter.position encoding = ⟨0, 1⟩ ∧
      positionToIter encoding [.eol .crlf] (iter.position encoding) = some 0 ∧
      charOffset [.eol .crlf] 0 ≠ iter.offset := by
  refine ⟨⟨0, true, Nat.zero_le _, fun _ => rfl⟩, rfl, fun encoding => ?_⟩
  cases encoding <;> decide

end Medit
