import Mathlib.Algebra.Group.Nat.Defs
import Mathlib.Algebra.GroupWithZero.Nat
import Mathlib.Algebra.Ring.Int.Defs
import Mathlib.Data.List.Basic
import Medit.Library.Utf8

/-!
# Encoding forms of Unicode

UTF-8, and UTF-16 and UTF-32 with the bytes of a unit in either order.

## Main definitions

* `Form`, `Form.encode` — the bytes of a text.
* `Form.decode` — the text of bytes.

## Main results

* `Form.decode_encode`, `Form.encode_of_decode` — both are inverse to each other.
-/

namespace Unicode

inductive Form where
  | utf8
  | utf16 (big : Bool)
  | utf32 (big : Bool)
  deriving DecidableEq, Repr

/-- The bytes of a unit of 16 bits. -/
def bytes16 (big : Bool) (n : ℕ) : List UInt8 :=
  if big then [(n / 256).toUInt8, n.toUInt8] else [n.toUInt8, (n / 256).toUInt8]

/-- The bytes of a unit of 32 bits. -/
def bytes32 (big : Bool) (n : ℕ) : List UInt8 :=
  if big then bytes16 true (n / 65536) ++ bytes16 true n
  else bytes16 false n ++ bytes16 false (n / 65536)

/-- The units of 16 bits of a character. -/
def units16 (c : Char) : List ℕ :=
  if c.toNat < 0x10000 then [c.toNat]
  else [0xD800 + (c.toNat - 0x10000) / 0x400, 0xDC00 + (c.toNat - 0x10000) % 0x400]

def Form.encode : Form → List Char → List UInt8
  | utf8, cs => Utf8.encode cs
  | utf16 big, cs => cs.flatMap fun c => (units16 c).flatMap (bytes16 big)
  | utf32 big, cs => cs.flatMap fun c => bytes32 big c.toNat

/-! ## Decoding -/

def unit16 (big : Bool) (a b : UInt8) : ℕ :=
  if big then 256 * a.toNat + b.toNat else a.toNat + 256 * b.toNat

def unit32 (big : Bool) (a b c d : UInt8) : ℕ :=
  if big then 65536 * unit16 true a b + unit16 true c d
  else unit16 false a b + 65536 * unit16 false c d

/-- The character of a number that is one. -/
def charOf (n : ℕ) : Option Char := if n.isValidChar then some (Char.ofNat n) else none

def decode32 (big : Bool) : List UInt8 → Option (List Char)
  | [] => some []
  | a :: b :: c :: d :: rest => do
    let char ← charOf (unit32 big a b c d)
    let chars ← decode32 big rest
    some (char :: chars)
  | _ => none

/-- The character of a pair of surrogates. -/
def charOfPair (high low : ℕ) : Option Char :=
  if 0xDC00 ≤ low ∧ low < 0xE000 then
    charOf (0x10000 + (high - 0xD800) * 0x400 + (low - 0xDC00))
  else none

def decode16 (big : Bool) : List UInt8 → Option (List Char)
  | [] => some []
  | a :: b :: rest =>
    let n := unit16 big a b
    if 0xD800 ≤ n ∧ n < 0xDC00 then
      match rest with
      | c :: d :: rest => do
        let char ← charOfPair n (unit16 big c d)
        let chars ← decode16 big rest
        some (char :: chars)
      | _ => none
    else do
      let char ← charOf n
      let chars ← decode16 big rest
      some (char :: chars)
  | _ => none

def Form.decode : Form → List UInt8 → Option (List Char)
  | utf8, bs => Utf8.decode bs
  | utf16 big, bs => decode16 big bs
  | utf32 big, bs => decode32 big bs

variable {big : Bool} {n : ℕ} {c : Char}

@[simp] theorem Form.encode_nil (form : Form) : form.encode [] = [] := by cases form <;> rfl

theorem charOf_eq_some : charOf n = some c ↔ n = c.toNat := by
  unfold charOf
  constructor
  · intro h
    split at h
    · next hn =>
      obtain rfl := Option.some.inj h
      rw [Char.ofNat, dif_pos hn]
      rfl
    · simp at h
  · rintro rfl
    have hvalid : c.toNat.isValidChar := c.valid
    rw [if_pos hvalid, Char.ofNat_toNat]

theorem bytes16_unit16 (a b : UInt8) : bytes16 big (unit16 big a b) = [a, b] := by
  have ha := a.toNat_lt
  have hb := b.toNat_lt
  cases big <;> simp [bytes16, unit16, ← UInt8.toNat_inj] <;> omega

theorem exists_bytes16 (big : Bool) (h : n < 65536) :
    ∃ a b, bytes16 big n = [a, b] ∧ unit16 big a b = n := by
  cases big
  · refine ⟨_, _, rfl, ?_⟩
    simp [unit16]
    omega
  · refine ⟨_, _, rfl, ?_⟩
    simp [unit16]
    omega

theorem bytes32_unit32 (a b c d : UInt8) : bytes32 big (unit32 big a b c d) = [a, b, c, d] := by
  have ha := a.toNat_lt
  have hb := b.toNat_lt
  have hc := c.toNat_lt
  have hd := d.toNat_lt
  cases big <;> simp [bytes32, bytes16, unit32, unit16, ← UInt8.toNat_inj] <;> omega

theorem exists_bytes32 (big : Bool) (h : n < 2 ^ 32) :
    ∃ a b c d, bytes32 big n = [a, b, c, d] ∧ unit32 big a b c d = n := by
  cases big <;> refine ⟨_, _, _, _, rfl, ?_⟩ <;> simp [unit32, unit16] <;> omega

/-- A character is either one unit that is no surrogate, or a pair of surrogates. -/
theorem toNat_cases (c : Char) :
    (c.toNat < 0xD800 ∨ 0xE000 ≤ c.toNat ∧ c.toNat < 0x10000) ∨
      0x10000 ≤ c.toNat ∧ c.toNat < 0x110000 := by
  have hvalid : c.toNat.isValidChar := c.valid
  simp only [Nat.isValidChar] at hvalid
  omega

theorem charOfPair_eq_some {high low : ℕ} (hhigh : 0xD800 ≤ high ∧ high < 0xDC00) :
    charOfPair high low = some c ↔ units16 c = [high, low] := by
  have hc := toNat_cases c
  unfold charOfPair units16
  split
  · rw [charOf_eq_some]
    split
    · simp
      omega
    · simp only [List.cons.injEq, and_true]
      omega
  · split
    · simp
    · simp only [reduceCtorEq, List.cons.injEq, and_true, false_iff]
      omega

theorem decode16_units (c : Char) (rest : List UInt8) :
    decode16 big ((units16 c).flatMap (bytes16 big) ++ rest) = (decode16 big rest).map (c :: ·) := by
  have hc := toNat_cases c
  unfold units16
  split
  · next h =>
    obtain ⟨a, b, hbytes, hunit⟩ := exists_bytes16 big h
    have hnot : ¬ (0xD800 ≤ c.toNat ∧ c.toNat < 0xDC00) := by omega
    have hchar : charOf c.toNat = some c := charOf_eq_some.2 rfl
    simp only [List.flatMap_cons, List.flatMap_nil, List.append_nil, hbytes, List.cons_append,
      List.nil_append]
    rw [decode16.eq_def]
    simp only [hunit, hnot, if_false, hchar]
    cases decode16 big rest <;> rfl
  · next h =>
    have hhigh : 0xD800 ≤ 0xD800 + (c.toNat - 0x10000) / 0x400 ∧
        0xD800 + (c.toNat - 0x10000) / 0x400 < 0xDC00 := by omega
    have hpair : charOfPair (0xD800 + (c.toNat - 0x10000) / 0x400)
        (0xDC00 + (c.toNat - 0x10000) % 0x400) = some c := by
      rw [charOfPair_eq_some hhigh, units16, if_neg h]
    obtain ⟨a, b, hbytes, hunit⟩ := exists_bytes16 big
      (n := 0xD800 + (c.toNat - 0x10000) / 0x400) (by omega)
    obtain ⟨a', b', hbytes', hunit'⟩ := exists_bytes16 big
      (n := 0xDC00 + (c.toNat - 0x10000) % 0x400) (by omega)
    simp only [List.flatMap_cons, List.flatMap_nil, List.append_nil, hbytes, hbytes',
      List.cons_append, List.nil_append]
    rw [decode16.eq_def]
    simp only [hunit, hunit', hhigh, and_self, if_true, hpair]
    cases decode16 big rest <;> rfl

theorem decode32_bytes (c : Char) (rest : List UInt8) :
    decode32 big (bytes32 big c.toNat ++ rest) = (decode32 big rest).map (c :: ·) := by
  have hc := toNat_cases c
  obtain ⟨x, y, z, w, hbytes, hunit⟩ := exists_bytes32 big (n := c.toNat) (by omega)
  have hchar : charOf c.toNat = some c := charOf_eq_some.2 rfl
  rw [hbytes, List.cons_append, List.cons_append, List.cons_append, List.cons_append,
    List.nil_append, decode32, hunit, hchar]
  cases decode32 big rest <;> rfl

/-- What is encoded is decoded again. -/
theorem Form.decode_encode (form : Form) (cs : List Char) :
    form.decode (form.encode cs) = some cs := by
  cases form with
  | utf8 => exact Utf8.decode_encode cs
  | utf16 big =>
    simp only [Form.decode, Form.encode]
    induction cs with
    | nil => rfl
    | cons c cs ih => rw [List.flatMap_cons, decode16_units, ih, Option.map_some]
  | utf32 big =>
    simp only [Form.decode, Form.encode]
    induction cs with
    | nil => rfl
    | cons c cs ih => rw [List.flatMap_cons, decode32_bytes, ih, Option.map_some]

theorem encode_of_decode16 {bs : List UInt8} {cs : List Char} (h : decode16 big bs = some cs) :
    (Form.utf16 big).encode cs = bs := by
  fun_induction decode16 big bs generalizing cs with
  | case1 =>
    obtain rfl := Option.some.inj h
    rfl
  | case2 a b n hn c d rest =>
    rename_i ih
    obtain ⟨char, hchar, h⟩ := Option.bind_eq_some_iff.1 h
    obtain ⟨chars, hchars, h⟩ := Option.bind_eq_some_iff.1 h
    obtain rfl := Option.some.inj h
    have hunits : units16 char = [unit16 big a b, unit16 big c d] :=
      (charOfPair_eq_some hn).1 hchar
    have hrest := ih hchars
    simp only [Form.encode, List.flatMap_cons] at hrest ⊢
    rw [hrest, hunits]
    simp [bytes16_unit16]
  | case3 => simp at h
  | case4 a b rest n hn =>
    rename_i ih
    obtain ⟨char, hchar, h⟩ := Option.bind_eq_some_iff.1 h
    obtain ⟨chars, hchars, h⟩ := Option.bind_eq_some_iff.1 h
    obtain rfl := Option.some.inj h
    have hnat : unit16 big a b = char.toNat := charOf_eq_some.1 hchar
    have hlt : unit16 big a b < 65536 := by
      have := a.toNat_lt
      have := b.toNat_lt
      cases big <;> simp [unit16] <;> omega
    have hunits : units16 char = [unit16 big a b] := by rw [units16, if_pos (by omega), hnat]
    have hrest := ih hchars
    simp only [Form.encode, List.flatMap_cons] at hrest ⊢
    rw [hrest, hunits]
    simp [bytes16_unit16]
  | case5 => simp at h

theorem encode_of_decode32 {bs : List UInt8} {cs : List Char} (h : decode32 big bs = some cs) :
    (Form.utf32 big).encode cs = bs := by
  fun_induction decode32 big bs generalizing cs with
  | case1 =>
    obtain rfl := Option.some.inj h
    rfl
  | case2 a b c d rest ih =>
    obtain ⟨char, hchar, h⟩ := Option.bind_eq_some_iff.1 h
    obtain ⟨chars, hchars, h⟩ := Option.bind_eq_some_iff.1 h
    obtain rfl := Option.some.inj h
    have hrest := ih hchars
    simp only [Form.encode, List.flatMap_cons] at hrest ⊢
    rw [hrest, ← charOf_eq_some.1 hchar, bytes32_unit32]
    rfl
  | case3 => simp at h

/-- Only the encoding of a text is decoded to it. -/
theorem Form.encode_of_decode {form : Form} {bs : List UInt8} {cs : List Char}
    (h : form.decode bs = some cs) : form.encode cs = bs := by
  cases form with
  | utf8 => exact Utf8.encode_of_decode h
  | utf16 big => exact encode_of_decode16 h
  | utf32 big => exact encode_of_decode32 h

end Unicode
