import Mathlib.Data.Nat.Digits.Lemmas
import Medit.Library.CString

/-!
# Hexadecimal numbers

Numbers as `printf` writes them in hexadecimal digits, and as `g_ascii_strtoull` reads them.

## Main definitions

* `hexPad` — `printf` with `%0wx`.
* `strtoullHex` — `g_ascii_strtoull` with base sixteen.

## Main results

* `strtoullHex_hexPad` — a number is read as it was written.
-/

namespace CString

/-- A digit as `%x` writes it. -/
def hexDigit (d : ℕ) : UInt8 := if d < 10 then (48 + d).toUInt8 else (87 + d).toUInt8

/-- `printf` with `%0wx`, where `w` is not zero. -/
def hexPad (w n : ℕ) : List UInt8 := (((Nat.digits 16 n).reverse).map hexDigit).leftpad w 48

/-- `g_ascii_xdigit_value` -/
def hexValue (c : UInt8) : Option ℕ :=
  if 48 ≤ c ∧ c ≤ 57 then some (c.toNat - 48)
  else if 97 ≤ c ∧ c ≤ 102 then some (c.toNat - 87)
  else if 65 ≤ c ∧ c ≤ 70 then some (c.toNat - 55)
  else none

/-- The value of hexadecimal digits. -/
def ofHexDigits (s : List UInt8) : ℕ := s.foldl (fun n c => 16 * n + (hexValue c).getD 0) 0

/-- `g_ascii_strtoull` with base sixteen: the number and what follows it, or nothing where there is
no number. -/
def strtoullHex (s : List UInt8) : Option (ℕ × List UInt8) :=
  let s := s.dropWhile fun c => isSpace c || c == 11
  let negative := s.head? == some 45
  let s := if negative || s.head? == some 43 then s.tail else s
  let s := if s.head? = some 48 ∧ (s[1]? = some 120 ∨ s[1]? = some 88) then s.drop 2 else s
  let digits := s.takeWhile fun c => (hexValue c).isSome
  if digits = [] then none
  else
    let n := min (ofHexDigits digits) (2 ^ 64 - 1)
    some (if negative then (2 ^ 64 - n) % 2 ^ 64 else n, s.dropWhile fun c => (hexValue c).isSome)

/-! ## Digits -/

theorem hexValue_hexDigit {d : ℕ} (h : d < 16) : hexValue (hexDigit d) = some d := by
  revert d
  decide

theorem hexValue_isSome {w n : ℕ} {c : UInt8} (h : c ∈ hexPad w n) : (hexValue c).isSome := by
  rw [hexPad, List.leftpad, List.mem_append] at h
  obtain h | h := h
  · rw [List.eq_of_mem_replicate h]
    rfl
  · obtain ⟨d, hd, rfl⟩ := List.mem_map.1 h
    rw [hexValue_hexDigit (Nat.digits_lt_base (by norm_num) (List.mem_reverse.1 hd))]
    rfl

theorem length_hexPad {w n : ℕ} (h : n < 16 ^ w) : (hexPad w n).length = w := by
  have hlen := (Nat.digits_length_le_iff (by norm_num) n).2 h
  rw [hexPad, List.length_leftpad, List.length_map, List.length_reverse]
  exact max_eq_left hlen

/-- A number is the value of its digits. -/
theorem ofHexDigits_hexPad (w n : ℕ) : ofHexDigits (hexPad w n) = n := by
  have hzeros (k : ℕ) : (List.replicate k (48 : UInt8)).foldl
      (fun n c => 16 * n + (hexValue c).getD 0) 0 = 0 := by
    induction k with
    | zero => rfl
    | succ k ih => simpa [List.replicate_succ, hexValue] using ih
  have hdigits (ds : List ℕ) (hds : ∀ d ∈ ds, d < 16) :
      (ds.reverse.map hexDigit).foldl (fun n c => 16 * n + (hexValue c).getD 0) 0 =
        Nat.ofDigits 16 ds := by
    induction ds with
    | nil => rfl
    | cons d ds ih =>
      rw [List.reverse_cons, List.map_append, List.foldl_append, ih fun d hd => hds d (by simp [hd])]
      simp [hexValue_hexDigit (hds d (by simp)), Nat.ofDigits_cons]
      omega
  rw [ofHexDigits, hexPad, List.leftpad, List.foldl_append, hzeros,
    hdigits _ fun d hd => Nat.digits_lt_base (by norm_num) hd, Nat.ofDigits_digits]

theorem not_space_of_hexValue {c : UInt8} (h : (hexValue c).isSome) :
    (isSpace c || c == 11) = false ∧ c ≠ 43 ∧ c ≠ 45 ∧ c ≠ 120 ∧ c ≠ 88 ∧ c ≠ 0 := by
  simp only [isSpace, Bool.or_eq_false_iff, beq_eq_false_iff_ne]
  refine ⟨⟨⟨⟨⟨⟨?_, ?_⟩, ?_⟩, ?_⟩, ?_⟩, ?_⟩, ?_, ?_, ?_, ?_, ?_⟩ <;> rintro rfl <;> revert h <;> decide

/-- What has been written as a number is read as the number. -/
theorem strtoullHex_hexPad {w n : ℕ} (hw : w ≠ 0) (h : n < 2 ^ 64) :
    strtoullHex (hexPad w n) = some (n, []) := by
  have hdigit (c : UInt8) (hc : c ∈ hexPad w n) : (hexValue c).isSome := hexValue_isSome hc
  have htake : (hexPad w n).takeWhile (fun c => (hexValue c).isSome) = hexPad w n :=
    List.takeWhile_eq_self_iff.2 hdigit
  have hdrop : (hexPad w n).dropWhile (fun c => (hexValue c).isSome) = [] :=
    List.dropWhile_eq_nil_iff.2 hdigit
  have hmin : min (ofHexDigits (hexPad w n)) (2 ^ 64 - 1) = n := by
    rw [ofHexDigits_hexPad]
    omega
  have hne : hexPad w n ≠ [] := by
    refine List.ne_nil_of_length_pos ?_
    rw [hexPad, List.length_leftpad]
    exact lt_max_of_lt_left (Nat.pos_of_ne_zero hw)
  obtain ⟨c, s, hs⟩ := List.exists_cons_of_ne_nil hne
  obtain ⟨hspace, hplus, hminus, -⟩ := not_space_of_hexValue (hdigit c (by simp [hs]))
  have hskip : (hexPad w n).dropWhile (fun c => isSpace c || c == 11) = hexPad w n := by
    simp [hs, hspace]
  have hhead : (hexPad w n).head? = some c := by simp [hs]
  have hx : ¬ ((hexPad w n).head? = some 48 ∧
      ((hexPad w n)[1]? = some 120 ∨ (hexPad w n)[1]? = some 88)) := by
    rintro ⟨-, h1 | h1⟩
    · exact (not_space_of_hexValue (hdigit _ (List.mem_of_getElem? h1))).2.2.2.1 rfl
    · exact (not_space_of_hexValue (hdigit _ (List.mem_of_getElem? h1))).2.2.2.2.1 rfl
  have hsign : ((hexPad w n).head? == some 45) = false ∧ ((hexPad w n).head? == some 43) = false := by
    simp [hhead, hplus, hminus]
  simp only [strtoullHex, hskip, hsign, Bool.or_self, Bool.false_eq_true, if_false, hx, htake, hdrop,
    hmin, hne]

end CString
