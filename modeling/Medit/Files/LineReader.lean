import Medit.Library.CharLines
import Medit.Library.CString
import Medit.Library.Utf8

/-!
# The line reader

`moo_line_reader_get_line`, which cuts bytes into lines, and what it does with the bytes of a text.

## Main definitions

* `mooLineReaderGetLine` — a line, its end, and what follows.
* `getLineChars` — the same for characters.

## Main results

* `mooLineReaderGetLine_encode` — the reader sees the ends of lines of a text.
-/

namespace Medit

open Paragraphs

/-- The bytes of U+2029. -/
def psBytes : List UInt8 := [0xE2, 0x80, 0xA9]

/-- `moo_line_reader_get_line`: the line, its end, and the rest. -/
def mooLineReaderGetLine : List UInt8 → List UInt8 × List UInt8 × List UInt8
  | [] => ([], [], [])
  | b :: bs =>
    if b = 13 then
      if bs.head? = some 10 then ([], [13, 10], bs.tail) else ([], [13], bs)
    else if b = 10 then ([], [10], bs)
    else if b = 0xE2 ∧ [0x80, 0xA9] <+: bs then ([], psBytes, bs.drop 2)
    else
      let (line, term, rest) := mooLineReaderGetLine bs
      (b :: line, term, rest)

/-- `moo_line_reader_init`: nothing is read from an empty text. -/
def mooLineReaderInit (text : List UInt8) : Option (List UInt8) :=
  if text = [] then none else some text

/-- What a reader goes on with: nothing when the line that was read had no end. -/
def lineReaderRest (term rest : List UInt8) : Option (List UInt8) :=
  if term = [] then none else some rest

/-! ## Characters -/

/-- The first line of a text, how it ends, and the rest. -/
def getLineChars : List Char → List Char × Option Delim × List Char
  | [] => ([], none, [])
  | c :: cs =>
    if c = '\r' then
      if cs.head? = some '\n' then ([], some .crlf, cs.tail) else ([], some .cr, cs)
    else if c = '\n' then ([], some .lf, cs)
    else if c = paragraphSeparator then ([], some .ps, cs)
    else
      let (line, term, rest) := getLineChars cs
      (c :: line, term, rest)

/-- The characters of the end of a line, if there is one. -/
def termChars (term : Option Delim) : List Char := term.elim [] Delim.chars

theorem encode_cons (c : Char) (cs : List Char) :
    Utf8.encode (c :: cs) = String.utf8EncodeChar c ++ Utf8.encode cs := rfl

/-- Only `\n` is encoded with a byte 10 in front. -/
theorem head?_encode (cs : List Char) :
    (Utf8.encode cs).head? = some 10 ↔ cs.head? = some '\n' := by
  cases cs with
  | nil => simp
  | cons c cs =>
    have hnat : c.toNat = c.val.toNat := rfl
    rw [encode_cons, List.head?_cons, Option.some_inj]
    constructor
    · intro h
      have hval : c.val.toNat = 10 := by
        simp only [String.utf8EncodeChar] at h
        split_ifs at h <;> simp [← UInt8.toNat_inj] at h <;> omega
      exact Char.ext (UInt32.toNat_inj.1 hval)
    · rintro rfl
      rfl

/-- The bytes of a character that ends no line are not the end of one. -/
theorem mooLineReaderGetLine_append {c : Char} (h : isDelim c = false) (bs : List UInt8) :
    mooLineReaderGetLine (String.utf8EncodeChar c ++ bs) =
      (String.utf8EncodeChar c ++ (mooLineReaderGetLine bs).1, (mooLineReaderGetLine bs).2) := by
  have hnat : c.toNat = c.val.toNat := rfl
  have hskip {b : UInt8} {bs : List UInt8} (h : b.toNat ≠ 13 ∧ b.toNat ≠ 10 ∧
      (b.toNat = 0xE2 → ¬ [0x80, 0xA9] <+: bs)) : mooLineReaderGetLine (b :: bs) =
        (b :: (mooLineReaderGetLine bs).1, (mooLineReaderGetLine bs).2) := by
    have h13 : b ≠ 13 := fun hb => h.1 (by rw [hb]; rfl)
    have h10 : b ≠ 10 := fun hb => h.2.1 (by rw [hb]; rfl)
    have hps : ¬ (b = 0xE2 ∧ [0x80, 0xA9] <+: bs) := fun hb => h.2.2 (by rw [hb.1]; rfl) hb.2
    rw [mooLineReaderGetLine, if_neg h13, if_neg h10, if_neg hps]
  simp only [isDelim, Bool.or_eq_false_iff, beq_eq_false_iff_ne] at h
  obtain ⟨⟨hlf, hcr⟩, hps⟩ := h
  have hval {n : ℕ} (hn : n.isValidChar) (hc : c ≠ Char.ofNat n) : c.val.toNat ≠ n := by
    rintro rfl
    exact hc (Char.ofNat_toNat c).symm
  have hlf := hval (n := 10) (by decide) hlf
  have hcr := hval (n := 13) (by decide) hcr
  have hps := hval (n := 0x2029) (by decide) hps
  have hlt := c.val.toNat_lt
  simp only [String.utf8EncodeChar]
  split_ifs with h1 h2 h3
  · rw [List.singleton_append, hskip ⟨by simp; omega, by simp; omega, by simp; omega⟩]
    rfl
  · rw [List.cons_append, hskip ⟨by simp; omega, by simp; omega, by simp; omega⟩,
      List.singleton_append, hskip ⟨by simp; omega, by simp; omega, by simp; omega⟩]
    rfl
  · rw [List.cons_append, hskip ⟨by simp; omega, by simp; omega, fun hb hpre => ?_⟩,
      List.cons_append, hskip ⟨by simp; omega, by simp; omega, by simp; omega⟩,
      List.singleton_append, hskip ⟨by simp; omega, by simp; omega, by simp; omega⟩]
    · rfl
    · -- the three bytes of U+2029
      simp [← UInt8.toNat_inj] at hb hpre
      omega
  · rw [List.cons_append, hskip ⟨by simp; omega, by simp; omega, by simp; omega⟩,
      List.cons_append, hskip ⟨by simp; omega, by simp; omega, by simp; omega⟩,
      List.cons_append, hskip ⟨by simp; omega, by simp; omega, by simp; omega⟩,
      List.singleton_append, hskip ⟨by simp; omega, by simp; omega, by simp; omega⟩]
    rfl

/-- The reader sees the ends of lines of a text, and only these. -/
theorem mooLineReaderGetLine_encode (cs : List Char) :
    mooLineReaderGetLine (Utf8.encode cs) = (Utf8.encode (getLineChars cs).1,
      Utf8.encode (termChars (getLineChars cs).2.1), Utf8.encode (getLineChars cs).2.2) := by
  induction cs with
  | nil => rfl
  | cons c cs ih =>
    rw [getLineChars]
    split
    · next hcr =>
      subst hcr
      have hbytes : Utf8.encode ('\r' :: cs) = 13 :: Utf8.encode cs := rfl
      rw [hbytes, mooLineReaderGetLine, if_pos rfl]
      by_cases hlf : cs.head? = some '\n'
      · obtain ⟨cs, rfl⟩ : ∃ cs', cs = '\n' :: cs' := by
          cases cs with
          | nil => simp at hlf
          | cons c cs => exact ⟨cs, by simpa using hlf⟩
        rfl
      · rw [if_neg hlf, if_neg (mt (head?_encode cs).1 hlf)]
        rfl
    · next hcr =>
      split
      · next hlf =>
        subst hlf
        rfl
      · next hlf =>
        split
        · next hps =>
          subst hps
          have hbytes : Utf8.encode (paragraphSeparator :: cs) = psBytes ++ Utf8.encode cs := rfl
          rw [hbytes]
          rfl
        · next hps =>
          have hdelim : isDelim c = false := by simp [isDelim, hlf, hcr, hps]
          rw [encode_cons, mooLineReaderGetLine_append hdelim, ih]
          rfl

end Medit
