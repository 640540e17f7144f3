import Mathlib.Algebra.Group.Nat.Defs
import Mathlib.Algebra.GroupWithZero.Nat
import Mathlib.Algebra.Ring.Int.Defs
import Mathlib.Data.List.Basic
import Mathlib.Data.List.TakeWhile

/-!
# Strings of bytes

The functions of GLib and of the C library on strings that end at a zero byte, for lists of bytes.

## Main definitions

* `strcmp`, `strstrLen`, `strndup`, `split`, `splitSet`, `strip`, `strcaseEq`, `strtoull`, `strtol` —
  `strcmp`, `g_strstr_len`, `g_strndup`, `g_strsplit`, `g_strsplit_set`, `g_strstrip`,
  `g_ascii_strcasecmp`, `g_ascii_strtoull` and `strtol`.
* `decimal`, `signed` — what `printf` writes for a number.
-/

namespace CString

/-- The bytes of an ASCII string. -/
def ascii (s : List Char) : List UInt8 := s.map fun c => c.toNat.toUInt8

/-- `g_strstr_len`: the offset of the first `needle`, which ends the search at a zero byte. -/
def strstrLen (needle : List UInt8) : List UInt8 → Option ℕ
  | [] => none
  | c :: cs =>
    if c = 0 then none
    else if needle <+: c :: cs then some 0
    else (strstrLen needle cs).map (· + 1)

/-- `strcmp`, of which the sign matters only. -/
def strcmp : List UInt8 → List UInt8 → ℤ
  | [], [] => 0
  | [], _ :: _ => -1
  | _ :: _, [] => 1
  | a :: as, b :: bs => if a = b then strcmp as bs else if a < b then -1 else 1

attribute [elab_as_elim] strcmp.induct_unfolding

/-- `g_strndup`, which copies up to a zero byte and fills the rest with zeros. -/
def strndup (data : List UInt8) (n : ℕ) : List UInt8 :=
  let copied := (data.take n).takeWhile (· ≠ 0)
  copied ++ List.replicate (n - copied.length) 0

/-- `g_strsplit_set` without a limit. -/
def splitSet (p : UInt8 → Bool) (s : List UInt8) : List (List UInt8) :=
  if s = [] then [] else s.splitOnP p

/-- `g_strsplit` at one byte, without a limit. -/
def split (sep : UInt8) (s : List UInt8) : List (List UInt8) := if s = [] then [] else s.splitOn sep

/-- `g_ascii_isspace` -/
def isSpace (c : UInt8) : Bool := c == 32 || c == 9 || c == 10 || c == 12 || c == 13

/-- `g_strstrip` -/
def strip (s : List UInt8) : List UInt8 := ((s.dropWhile isSpace).reverse.dropWhile isSpace).reverse

/-- `g_ascii_tolower` -/
def toLower (c : UInt8) : UInt8 := if 65 ≤ c ∧ c ≤ 90 then c + 32 else c

/-- Whether `g_ascii_strcasecmp` is zero. -/
def strcaseEq (s t : List UInt8) : Bool := s.map toLower == t.map toLower

def isDigit (c : UInt8) : Bool := 48 ≤ c && c ≤ 57

/-- The value of decimal digits. -/
def ofDigits (s : List UInt8) : ℕ := s.foldl (fun n c => 10 * n + (c.toNat - 48)) 0

/-- `g_ascii_strtoull` with base ten: the number and what follows it, or nothing where there is
no number. Blanks before it, of which `'\v'` is one here, and a sign are skipped; a number that does
not fit is the greatest one, and a negative one wraps. -/
def strtoull (s : List UInt8) : Option (ℕ × List UInt8) :=
  let s := s.dropWhile fun c => isSpace c || c == 11
  let negative := s.head? == some 45
  let s := if negative || s.head? == some 43 then s.tail else s
  let digits := s.takeWhile isDigit
  if digits = [] then none
  else
    let n := min (ofDigits digits) (2 ^ 64 - 1)
    some (if negative then (2 ^ 64 - n) % 2 ^ 64 else n, s.dropWhile isDigit)

/-- `strtol` with base ten, without its limits. -/
def strtol (s : List UInt8) : Option (ℤ × List UInt8) :=
  let s := s.dropWhile fun c => isSpace c || c == 11
  let negative := s.head? == some 45
  let s := if negative || s.head? == some 43 then s.tail else s
  let digits := s.takeWhile isDigit
  if digits = [] then none
  else some (if negative then -(ofDigits digits : ℤ) else ofDigits digits, s.dropWhile isDigit)

/-- A number as `printf` writes it. -/
def decimal (n : ℕ) : List UInt8 := ascii (Nat.toDigits 10 n)

/-- A number with a sign as `printf` writes it. -/
def signed (n : ℤ) : List UInt8 := if n < 0 then 45 :: decimal n.natAbs else decimal n.natAbs

/-! ## Comparing -/

theorem strcmp_eq_zero {s t : List UInt8} : strcmp s t = 0 ↔ s = t := by
  fun_induction strcmp s t <;> simp_all

theorem strcmp_comm (s t : List UInt8) : strcmp t s = -strcmp s t := by
  fun_induction strcmp s t with
  | case1 => rfl
  | case2 => rfl
  | case3 => rfl
  | case4 a as bs ih => rw [strcmp, if_pos rfl, ih]
  | case5 a as b bs hne hlt =>
    have hgt : ¬ b < a := by
      rw [UInt8.lt_iff_toNat_lt] at *
      omega
    rw [strcmp, if_neg (Ne.symm hne), if_neg hgt]
    rfl
  | case6 a as b bs hne hge =>
    have hlt : b < a := by
      rw [UInt8.lt_iff_toNat_lt] at *
      rw [← UInt8.toNat_inj] at hne
      omega
    rw [strcmp, if_neg (Ne.symm hne), if_pos hlt]

theorem strcmp_trans {s t u : List UInt8} (h : strcmp s t < 0) (h' : strcmp t u < 0) :
    strcmp s u < 0 := by
  induction s generalizing t u with
  | nil =>
    cases u with
    | nil => cases t <;> simp [strcmp] at h h'
    | cons c cs => simp [strcmp]
  | cons a as ih =>
    cases t with
    | nil => simp [strcmp] at h
    | cons b bs =>
      cases u with
      | nil => simp [strcmp] at h'
      | cons c cs =>
        simp only [strcmp, UInt8.lt_iff_toNat_lt, ← UInt8.toNat_inj] at *
        split_ifs at * <;> first | omega | exact ih h h'

/-! ## Searching -/

/-- A search skips what has neither the first byte of the needle nor a zero byte. -/
theorem strstrLen_skip {a : UInt8} {needle pre s : List UInt8} (h : ∀ c ∈ pre, c ≠ a ∧ c ≠ 0) :
    strstrLen (a :: needle) (pre ++ s) = (strstrLen (a :: needle) s).map (· + pre.length) := by
  induction pre with
  | nil => simp
  | cons c cs ih =>
    obtain ⟨hc, hz⟩ := h c (by simp)
    have hp : ¬ a :: needle <+: c :: (cs ++ s) := fun hp => hc (List.cons_prefix_cons.1 hp).1.symm
    rw [List.cons_append, strstrLen, if_neg hz, if_neg hp, ih fun c' hc' => h c' (by simp [hc']),
      Option.map_map]
    congr 1

theorem strstrLen_found {a : UInt8} {needle pre s : List UInt8} (h : ∀ c ∈ pre, c ≠ a ∧ c ≠ 0)
    (ha : a ≠ 0) : strstrLen (a :: needle) (pre ++ (a :: needle ++ s)) = some pre.length := by
  have hp : a :: needle <+: a :: (needle ++ s) := List.prefix_append (a :: needle) s
  rw [strstrLen_skip h, List.cons_append, strstrLen, if_neg ha, if_pos hp]
  simp

theorem strndup_eq {data : List UInt8} {n : ℕ} (hn : n ≤ data.length) (h : 0 ∉ data.take n) :
    strndup data n = data.take n := by
  have hall : (data.take n).takeWhile (· ≠ 0) = data.take n :=
    List.takeWhile_eq_self_iff.2 fun c hc => by
      simp only [ne_eq, decide_eq_true_eq]
      rintro rfl
      exact h hc
  rw [strndup, hall, List.length_take_of_le hn]
  simp

/-! ## Numbers -/

theorem digit_toNat {d : Char} (hd : d.isDigit = true) :
    48 ≤ d.toNat ∧ d.toNat ≤ 57 ∧ d.toNat.toUInt8.toNat = d.toNat := by
  obtain ⟨hlow, hhigh⟩ := Char.isDigit_iff_toNat.1 hd
  have h0 : '0'.toNat = 48 := rfl
  have h9 : '9'.toNat = 57 := rfl
  have hnat : d.toNat.toUInt8.toNat = d.toNat % 2 ^ 8 := UInt8.toNat_ofNat'
  omega

theorem isDigit_of_mem_decimal {n : ℕ} {c : UInt8} (h : c ∈ decimal n) : isDigit c = true := by
  obtain ⟨d, hd, rfl⟩ := List.mem_map.1 h
  obtain ⟨hlow, hhigh, hnat⟩ :=
    digit_toNat (Nat.isDigit_of_mem_toDigits (by decide) (by decide) hd)
  simp only [isDigit, Bool.and_eq_true, decide_eq_true_eq, UInt8.le_iff_toNat_le, hnat]
  exact ⟨hlow, hhigh⟩

theorem decimal_ne_nil (n : ℕ) : decimal n ≠ [] := by
  simp [decimal, ascii, Nat.toDigits_ne_nil]

theorem foldl_ofDigits {s : List Char} (hs : ∀ d ∈ s, d.isDigit = true) (k : ℕ) :
    (ascii s).foldl (fun n c => 10 * n + (c.toNat - 48)) k = Nat.ofDigitChars 10 s k := by
  rw [Nat.ofDigitChars_eq_foldl]
  induction s generalizing k with
  | nil => rfl
  | cons d s ih =>
    obtain ⟨-, -, hnat⟩ := digit_toNat (hs d (by simp))
    simp only [ascii, List.map_cons, List.foldl_cons, hnat]
    exact ih (fun d' h => hs d' (by simp [h])) _

theorem ofDigits_decimal (n : ℕ) : ofDigits (decimal n) = n := by
  have hs : ∀ d ∈ Nat.toDigits 10 n, d.isDigit = true := fun d hd =>
    Nat.isDigit_of_mem_toDigits (by decide) (by decide) hd
  rw [ofDigits, decimal, foldl_ofDigits hs, Nat.ofDigitChars_toDigits (by decide) (by decide)]

theorem not_space_of_isDigit {c : UInt8} (h : isDigit c = true) :
    (isSpace c || c == 11) = false ∧ c ≠ 43 ∧ c ≠ 45 := by
  simp only [isSpace, Bool.or_eq_false_iff, beq_eq_false_iff_ne]
  refine ⟨⟨⟨⟨⟨⟨?_, ?_⟩, ?_⟩, ?_⟩, ?_⟩, ?_⟩, ?_, ?_⟩ <;> rintro rfl <;> revert h <;> decide

/-- What has been written as a number is read as the number. -/
theorem strtoull_decimal {n : ℕ} (h : n < 2 ^ 64) : strtoull (decimal n) = some (n, []) := by
  have hdigit : ∀ c ∈ decimal n, isDigit c = true := fun c => isDigit_of_mem_decimal
  have htake : (decimal n).takeWhile isDigit = decimal n := List.takeWhile_eq_self_iff.2 hdigit
  have hdrop : (decimal n).dropWhile isDigit = [] := List.dropWhile_eq_nil_iff.2 hdigit
  have hmin : min (ofDigits (decimal n)) (2 ^ 64 - 1) = n := by
    rw [ofDigits_decimal]
    omega
  obtain ⟨c, s, hs⟩ := List.exists_cons_of_ne_nil (decimal_ne_nil n)
  have hc : isDigit c = true := hdigit c (by simp [hs])
  obtain ⟨hspace, hplus, hminus⟩ := not_space_of_isDigit hc
  have hskip : (decimal n).dropWhile (fun c => isSpace c || c == 11) = decimal n := by
    simp [hs, hspace]
  have hhead : (decimal n).head? = some c := by simp [hs]
  have hlow : (some c == some 45) = false := by simp [hminus]
  have hhigh : (some c == some 43) = false := by simp [hplus]
  simp only [strtoull, hskip, hhead, hlow, hhigh, htake, hdrop, hmin, decimal_ne_nil, Bool.or_false,
    Bool.false_eq_true, if_false]

theorem strtol_signed (n : ℤ) : strtol (signed n) = some (n, []) := by
  have hdigit : ∀ c ∈ decimal n.natAbs, isDigit c = true := fun c => isDigit_of_mem_decimal
  have htake : (decimal n.natAbs).takeWhile isDigit = decimal n.natAbs :=
    List.takeWhile_eq_self_iff.2 hdigit
  have hdrop : (decimal n.natAbs).dropWhile isDigit = [] := List.dropWhile_eq_nil_iff.2 hdigit
  by_cases hn : n < 0
  · have hskip : (45 :: decimal n.natAbs).dropWhile (fun c => isSpace c || c == 11) =
        45 :: decimal n.natAbs := List.dropWhile_cons_of_neg (by decide)
    have habs : -(n.natAbs : ℤ) = n := by omega
    simp only [strtol, signed, hn, hskip, List.head?_cons, List.tail_cons, beq_self_eq_true,
      Bool.true_or, htake, hdrop, decimal_ne_nil, ofDigits_decimal, habs, if_true, if_false]
  · obtain ⟨c, s, hs⟩ := List.exists_cons_of_ne_nil (decimal_ne_nil n.natAbs)
    obtain ⟨hspace, hplus, hminus⟩ := not_space_of_isDigit (hdigit c (by simp [hs]))
    have hskip : (decimal n.natAbs).dropWhile (fun c => isSpace c || c == 11) =
        decimal n.natAbs := by simp [hs, hspace]
    have hhead : (decimal n.natAbs).head? = some c := by simp [hs]
    have hlow : (some c == some 45) = false := by simp [hminus]
    have hhigh : (some c == some 43) = false := by simp [hplus]
    have habs : (n.natAbs : ℤ) = n := by omega
    simp only [strtol, signed, hn, hskip, hhead, hlow, hhigh, htake, hdrop, decimal_ne_nil,
      ofDigits_decimal, habs, Bool.or_false, Bool.false_eq_true, if_false]

theorem signed_ne_nil (n : ℤ) : signed n ≠ [] := by
  rw [signed]
  split_ifs <;> simp [decimal_ne_nil]

theorem mem_signed {n : ℤ} {c : UInt8} (h : c ∈ signed n) : c = 45 ∨ isDigit c = true := by
  rw [signed] at h
  split_ifs at h
  · exact (List.mem_cons.1 h).imp_right isDigit_of_mem_decimal
  · exact .inr (isDigit_of_mem_decimal h)

theorem split_intercalate {sep : UInt8} {ls : List (List UInt8)} (h : ∀ l ∈ ls, sep ∉ l)
    (hne : [sep].intercalate ls ≠ []) : split sep ([sep].intercalate ls) = ls := by
  rw [split, if_neg hne]
  refine List.splitOn_intercalate sep h ?_
  rintro rfl
  exact hne rfl

/-- What has no blank in it stays. -/
theorem strip_of_not_space {s : List UInt8} (h : ∀ c ∈ s, isSpace c = false) : strip s = s := by
  have hdrop {t : List UInt8} (ht : ∀ c ∈ t, isSpace c = false) : t.dropWhile isSpace = t := by
    cases t with
    | nil => rfl
    | cons c t => exact List.dropWhile_cons_of_neg (by simp [ht c])
  rw [strip, hdrop h, hdrop fun c hc => h c (List.mem_reverse.1 hc), List.reverse_reverse]

/-- Digits have no blanks around them. -/
theorem strip_decimal (n : ℕ) : strip (32 :: decimal n) = decimal n := by
  have hspace : ∀ c ∈ decimal n, isSpace c = false := fun c hc => by
    obtain ⟨hspace, -⟩ := not_space_of_isDigit (isDigit_of_mem_decimal hc)
    simp_all
  have hblank : strip (32 :: decimal n) = strip (decimal n) := by
    simp only [strip, List.dropWhile_cons_of_pos (show isSpace 32 = true by decide)]
  rw [hblank, strip_of_not_space hspace]

end CString
