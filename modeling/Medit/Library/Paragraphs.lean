import Mathlib.Data.List.Basic

/-!
# Paragraphs

The text of a `GtkTextBuffer`, which is cut into lines at `\n`, `\r`, `\r\n` and U+2029. The end of
a line is one symbol here: nothing can be put between the `\r` and the `\n` of one line end, and
the `\r` of a line does not become one with a `\n` that is put behind it.

## Main definitions

* `Sym` — a character or the end of a line.
* `paragraphs` — the symbols of a text that is put into a buffer.
* `text` — the characters of a buffer.
* `delete`, `insert` — the changes of a buffer.
-/

namespace Paragraphs

/-- The ends of lines: `\n`, `\r`, `\r\n` and the paragraph separator. -/
inductive Delim where
  | lf
  | cr
  | crlf
  | ps
  deriving DecidableEq, Repr

def paragraphSeparator : Char := Char.ofNat 0x2029

def Delim.chars : Delim → List Char
  | lf => ['\n']
  | cr => ['\r']
  | crlf => ['\r', '\n']
  | ps => [paragraphSeparator]

/-- The characters that end a line. -/
def isDelim (c : Char) : Bool := c == '\n' || c == '\r' || c == paragraphSeparator

inductive Sym where
  | char (c : Char) (h : isDelim c = false)
  | eol (d : Delim)
  deriving DecidableEq

def Sym.chars : Sym → List Char
  | char c _ => [c]
  | eol d => d.chars

def Sym.isEol : Sym → Bool
  | char .. => false
  | eol _ => true

def text (S : List Sym) : List Char := S.flatMap Sym.chars

/-- The symbol of a character that is not the first one of `\r\n`. -/
def ofChar (c : Char) : Sym :=
  if c = '\n' then .eol .lf
  else if c = '\r' then .eol .cr
  else if h : isDelim c = false then .char c h
  else .eol .ps

/-- The symbols of a text, cut with `pango_find_paragraph_boundary`. -/
def paragraphs : List Char → List Sym
  | [] => []
  | c :: cs =>
    if c = '\r' ∧ cs.head? = some '\n' then .eol .crlf :: (paragraphs cs).tail
    else ofChar c :: paragraphs cs

@[simp] theorem text_nil : text [] = [] := rfl

@[simp] theorem text_cons (s : Sym) (S : List Sym) : text (s :: S) = s.chars ++ text S := rfl

@[simp] theorem text_append (S S' : List Sym) : text (S ++ S') = text S ++ text S' := by
  simp [text]

theorem Sym.length_chars_pos (s : Sym) : 0 < s.chars.length := by
  rcases s with _ | d
  · simp [chars]
  · cases d <;> simp [chars, Delim.chars]

theorem text_eq_nil {S : List Sym} : text S = [] ↔ S = [] := by
  refine ⟨fun h => ?_, fun h => by rw [h, text_nil]⟩
  cases S with
  | nil => rfl
  | cons s S =>
    rw [text_cons, List.append_eq_nil_iff] at h
    simpa [h.1] using s.length_chars_pos

/-- The text up to a symbol, cut in two. -/
theorem text_take_append {S : List Sym} {i j : ℕ} (h : i ≤ j) :
    text (S.take j) = text (S.take i) ++ text ((S.take j).drop i) := by
  conv_lhs =>
    rw [← List.take_append_drop i (S.take j), List.take_take, Nat.min_eq_left h, text_append]

theorem chars_ofChar (c : Char) : (ofChar c).chars = [c] := by
  unfold ofChar
  split_ifs with h₁ h₂ h₃
  · simp [h₁, Sym.chars, Delim.chars]
  · simp [h₂, Sym.chars, Delim.chars]
  · rfl
  · obtain rfl : c = paragraphSeparator := by simpa [isDelim, h₁, h₂] using h₃
    rfl

/-- Cutting a text into lines keeps it. -/
@[simp] theorem text_paragraphs (t : List Char) : text (paragraphs t) = t := by
  induction t with
  | nil => rfl
  | cons c cs ih =>
    rw [paragraphs]
    split_ifs with h
    · obtain ⟨rfl, hhead⟩ := h
      obtain ⟨cs, rfl⟩ : ∃ cs', cs = '\n' :: cs' := by
        cases cs with
        | nil => simp at hhead
        | cons c cs => exact ⟨cs, by simpa using hhead⟩
      have htail : paragraphs ('\n' :: cs) = .eol .lf :: paragraphs cs := by
        rw [paragraphs, if_neg (by simp)]
        rfl
      rw [htail, text_cons] at ih
      have hcs : text (paragraphs cs) = cs := by simpa [Sym.chars, Delim.chars] using ih
      simp [htail, hcs, Sym.chars, Delim.chars]
    · rw [text_cons, chars_ofChar, ih]
      rfl

/-! ## Changes -/

/-- `gtk_text_buffer_delete`, which puts its iterators in order. -/
def delete (S : List Sym) (i j : ℕ) : List Sym := S.take (min i j) ++ S.drop (max i j)

/-- `gtk_text_buffer_insert` -/
def insert (S : List Sym) (i : ℕ) (t : List Char) : List Sym :=
  S.take i ++ (paragraphs t ++ S.drop i)

/-! ## Offsets -/

/-- The characters in front of the symbol at `i`. -/
def charOffset (S : List Sym) (i : ℕ) : ℕ := (text (S.take i)).length

theorem take_charOffset (S : List Sym) (i : ℕ) :
    (text S).take (charOffset S i) = text (S.take i) := by
  have h : text S = text (S.take i) ++ text (S.drop i) := by
    rw [← text_append, List.take_append_drop]
  rw [h, charOffset, List.take_left]

theorem drop_charOffset (S : List Sym) (i : ℕ) :
    (text S).drop (charOffset S i) = text (S.drop i) := by
  have h : text S = text (S.take i) ++ text (S.drop i) := by
    rw [← text_append, List.take_append_drop]
  rw [h, charOffset, List.drop_left]

theorem charOffset_lt {S : List Sym} {i j : ℕ} (h : i < j) (hj : j ≤ S.length) :
    charOffset S i < charOffset S j := by
  obtain ⟨k, rfl⟩ : ∃ k, j = i + (k + 1) := ⟨j - i - 1, by omega⟩
  have hdrop : (S.drop i).take (k + 1) ≠ [] := by
    simp only [ne_eq, List.take_eq_nil_iff, List.drop_eq_nil_iff]
    omega
  obtain ⟨s, S', hs⟩ := List.exists_cons_of_ne_nil hdrop
  have hpos := s.length_chars_pos
  rw [charOffset, charOffset, List.take_add, hs, text_append, text_cons]
  simp only [List.length_append]
  omega

theorem charOffset_le_iff {S : List Sym} {i j : ℕ} (hi : i ≤ S.length) (hj : j ≤ S.length) :
    charOffset S i ≤ charOffset S j ↔ i ≤ j := by
  refine ⟨fun h => ?_, fun h => ?_⟩
  · by_contra hlt
    have := charOffset_lt (Nat.lt_of_not_le hlt) hi
    omega
  · rcases Nat.lt_or_eq_of_le h with hlt | rfl
    · exact Nat.le_of_lt (charOffset_lt hlt hj)
    · exact Nat.le_refl _

theorem charOffset_le_length (S : List Sym) (i : ℕ) : charOffset S i ≤ (text S).length := by
  rw [charOffset, ← take_charOffset, List.length_take]
  exact Nat.min_le_right ..

end Paragraphs
