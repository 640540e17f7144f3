import Medit.QuickOpen.Fuzzy
import Mathlib.Data.List.Sublists
import Mathlib.Tactic.Linarith

/-!
# What the fuzzy match finds

A pattern is found exactly where its characters are a subsequence of the text. The pass forward
takes the earliest characters and the pass back the latest ones; a score stays far above `NEG_INF`
exactly where the pattern so far is a subsequence of the window so far.

## Main definitions

* `Subseq` — the pattern is a subsequence of the text, by case or by lower case.
* `RowSpec` — what a row of the table says of the window.

## Main results

* `scanForward_spec`, `scanBack_spec` — what the two passes find.
* `fuzzyMatch_iff` — a match is found exactly for a subsequence, and no read leaves the text.
-/

namespace Medit

open scoped List

variable {α β : Type*} {eq : α → α → Bool} {key : α → β}

/-! ## The two passes -/

theorem sublist_concat_concat {l₁ l₂ : List β} {a b : β} :
    l₁ ++ [a] <+ l₂ ++ [b] ↔ l₁ ++ [a] <+ l₂ ∨ a = b ∧ l₁ <+ l₂ := by
  have h : a :: l₁.reverse <+ b :: l₂.reverse ↔ _ := List.cons_sublist_cons'
  rw [← List.reverse_sublist, ← @List.reverse_sublist _ (l₁ ++ [a]) l₂,
    ← @List.reverse_sublist _ l₁]
  simpa using h

/-- The pass forward ends after the last character of the pattern, or there is no match. -/
theorem scanForward_spec (heq : ∀ a b, eq a b ↔ key a = key b) (pattern text : List α) (ti : ℕ)
    (hne : pattern ≠ []) :
    match scanForward eq pattern text ti with
    | none => ¬ pattern.map key <+ text.map key
    | some e => ti < e ∧ e ≤ ti + text.length ∧
      pattern.map key <+ (text.take (e - ti)).map key := by
  fun_induction scanForward eq pattern text ti with
  | case1 p c cs ti hpc =>
    have hkey := (heq _ _).1 hpc
    simp [hkey]
  | case2 p ps c cs ti hpc hps ih =>
    have hkey := (heq _ _).1 hpc
    have ih := ih hps
    cases hscan : scanForward eq ps cs (ti + 1) with
    | none =>
      rw [hscan] at ih
      simpa [hkey] using ih
    | some e =>
      rw [hscan] at ih
      obtain ⟨hlt, hle, hsub⟩ := ih
      have htake : e - ti = e - (ti + 1) + 1 := by omega
      refine ⟨by omega, by simp; omega, ?_⟩
      simpa [htake, hkey] using hsub
  | case3 p ps c cs ti hpc ih =>
    have hkey : key p ≠ key c := fun h => hpc ((heq _ _).2 h)
    have ih := ih hne
    cases hscan : scanForward eq (p :: ps) cs (ti + 1) with
    | none =>
      rw [hscan] at ih
      intro hsub
      refine ih ?_
      simpa [List.cons_sublist_cons', hkey] using hsub
    | some e =>
      rw [hscan] at ih
      obtain ⟨hlt, hle, hsub⟩ := ih
      have htake : e - ti = e - (ti + 1) + 1 := by omega
      refine ⟨by omega, by simp; omega, ?_⟩
      rw [htake]
      exact hsub.trans (by simp)
  | case4 text pattern ti h =>
    cases text with
    | nil => simpa using hne
    | cons c cs =>
      obtain ⟨p, ps, hp⟩ := List.exists_cons_of_ne_nil hne
      exact (h p ps c cs hp rfl).elim

/-- The inner loop back stops at the last such character, which can end any match. -/
theorem seekBack_spec (heq : ∀ a b, eq a b ↔ key a = key b) {pre : List α} {p : α} {text : List α}
    {n : ℕ} (hn : n ≤ text.length) (hsub : (pre ++ [p]).map key <+ (text.take n).map key) :
    ∃ start < n, seekBack eq p text n = some start ∧ pre.map key <+ (text.take start).map key ∧
      [p].map key <+ ((text.take n).drop start).map key := by
  induction n with
  | zero => simp at hsub
  | succ n ih =>
    obtain ⟨c, hc⟩ : ∃ c, text[n]? = some c := ⟨_, List.getElem?_eq_getElem hn⟩
    have htake : text.take (n + 1) = text.take n ++ [c] := by simp [List.take_add_one, hc]
    have hlen : (text.take n).length = n := by simp; omega
    by_cases hpc : key p = key c
    · have hpre : pre.map key <+ (text.take n).map key := by
        have h := hsub
        rw [htake, List.map_append, List.map_append] at h
        simpa [hpc] using h
      refine ⟨n, by omega, by simp [seekBack, hc, (heq p c).2 hpc], hpre, ?_⟩
      rw [htake, List.drop_left' hlen]
      simp [hpc]
    · have hbelow : (pre ++ [p]).map key <+ (text.take n).map key := by
        simpa [htake, sublist_concat_concat, hpc] using hsub
      obtain ⟨start, hlt, hseek, hpre, hp⟩ := ih (by omega) hbelow
      have hpc' : eq p c = false := by simpa using fun h => hpc ((heq p c).1 h)
      refine ⟨start, by omega, by simpa [seekBack, hc, hpc'] using hseek, hpre, hp.trans ?_⟩
      rw [htake, List.drop_append_of_le_length (by omega)]
      simp

/-- The pass back stays in the text, and the window it yields holds a match. -/
theorem scanBack_spec (heq : ∀ a b, eq a b ↔ key a = key b) {text rev : List α} {n : ℕ}
    (hne : rev ≠ []) (hn : n ≤ text.length)
    (hsub : rev.reverse.map key <+ (text.take n).map key) :
    ∃ start < n, scanBack eq text rev n = some start ∧
      rev.reverse.map key <+ ((text.take n).drop start).map key := by
  induction rev generalizing n with
  | nil => exact absurd rfl hne
  | cons p ps ih =>
    rw [List.reverse_cons] at hsub
    obtain ⟨start₁, hlt₁, hseek, hpre, hp⟩ := seekBack_spec heq hn hsub
    cases ps with
    | nil => exact ⟨start₁, hlt₁, hseek, by simpa using hp⟩
    | cons q ps =>
    obtain ⟨start, hlt, hscan, hrest⟩ := ih (by simp) (by omega) hpre
    refine ⟨start, by omega, by simp [scanBack, hseek, hscan], ?_⟩
    have hsplit : (text.take n).drop start =
        (text.take start₁).drop start ++ (text.take n).drop start₁ := by
      have htake : text.take start₁ = (text.take n).take start₁ := by
        rw [List.take_take, min_eq_left hlt₁.le]
      rw [htake, ← List.drop_append_of_le_length (by simp; omega), List.take_append_drop]
    rw [hsplit, List.reverse_cons, List.map_append, List.map_append]
    exact hrest.append hp

/-- The window of `fuzzy_bounds`, where there is a match. -/
theorem fuzzyBounds_spec (heq : ∀ a b, eq a b ↔ key a = key b) {pattern text : List α}
    (hne : pattern ≠ []) :
    (¬ pattern.map key <+ text.map key ∧ fuzzyBounds eq pattern text = some none) ∨
    ∃ lo hi, pattern.map key <+ text.map key ∧ fuzzyBounds eq pattern text = some (some (lo, hi)) ∧
      lo < hi ∧ hi ≤ text.length ∧ pattern.map key <+ ((text.take hi).drop lo).map key := by
  have hforward := scanForward_spec heq pattern text 0 hne
  unfold fuzzyBounds
  cases hscan : scanForward eq pattern text 0 with
  | none =>
    rw [hscan] at hforward
    exact .inl ⟨hforward, rfl⟩
  | some hi =>
    rw [hscan] at hforward
    obtain ⟨-, hle, hsub⟩ := hforward
    simp only [Nat.zero_add, Nat.sub_zero] at hle hsub
    obtain ⟨lo, hlt, hback, hwindow⟩ := scanBack_spec heq
      (show pattern.reverse ≠ [] by simpa using hne) hle (by simpa using hsub)
    refine .inr ⟨lo, hi, hsub.trans ((List.take_sublist _ _).map key), ?_, hlt, hle, ?_⟩
    · simp [hback]
    · simpa using hwindow

/-! ## The check of the bytes -/

/-- What a character is compared by. -/
def foldChar (u : Unichar) (caseSensitive : Bool) (c : Char) : Char :=
  if caseSensitive then c else u.toLower c

theorem charsEqual_iff {u : Unichar} {caseSensitive : Bool} (a b : Char) :
    charsEqual u caseSensitive a b ↔ foldChar u caseSensitive a = foldChar u caseSensitive b := by
  cases caseSensitive <;> simp [charsEqual, foldChar]

/-- The pattern is a subsequence of the text: by case if it has an upper-case letter, and by lower
case otherwise. -/
def Subseq (u : Unichar) (pattern text : List Char) : Prop :=
  pattern.map (foldChar u (pattern.any u.isUpper)) <+ text.map (foldChar u (pattern.any u.isUpper))

/-- The functions on characters agree with the ones on bytes for ASCII. -/
def Unichar.AgreesOnAscii (u : Unichar) : Prop :=
  ∀ c : Char, c.toNat < 128 → u.isUpper c = asciiIsUpper c.toNat.toUInt8 ∧
    (u.toLower c).toNat.toUInt8 = CString.toLower c.toNat.toUInt8

theorem isAsciiSubsequence_iff (caseSensitive : Bool) (pattern text : List UInt8) :
    isAsciiSubsequence caseSensitive pattern text ↔
      pattern.map (if caseSensitive then id else CString.toLower) <+
        text.map (if caseSensitive then id else CString.toLower) := by
  fun_induction isAsciiSubsequence caseSensitive pattern text with
  | case1 => simp
  | case2 => simp
  | case3 p ps c cs h ih => cases caseSensitive <;> simp_all
  | case4 p ps c cs h ih => cases caseSensitive <;> simp_all [List.cons_sublist_cons']

/-- A character with ASCII bytes only is ASCII. -/
theorem utf8EncodeChar_ascii {c : Char} (h : ∀ b ∈ String.utf8EncodeChar c, b < 0x80) :
    c.toNat < 128 ∧ String.utf8EncodeChar c = [c.toNat.toUInt8] := by
  have hnat : c.toNat = c.val.toNat := rfl
  simp only [String.utf8EncodeChar] at h ⊢
  split_ifs at h ⊢ with h₁ h₂ h₃
  · exact ⟨by omega, rfl⟩
  all_goals
    have hfirst := h _ List.mem_cons_self
    rw [UInt8.lt_iff_toNat_lt] at hfirst
    simp at hfirst
    omega

/-- A text with ASCII bytes only has a byte for each character. -/
theorem encode_ascii {cs : List Char} (h : (Utf8.encode cs).all (· < 0x80)) :
    (∀ c ∈ cs, c.toNat < 128) ∧ Utf8.encode cs = cs.map fun c => c.toNat.toUInt8 := by
  induction cs with
  | nil => simp
  | cons c cs ih =>
    have happend : Utf8.encode (c :: cs) = String.utf8EncodeChar c ++ Utf8.encode cs := rfl
    rw [happend, List.all_append, Bool.and_eq_true] at h
    have hbytes : ∀ b ∈ String.utf8EncodeChar c, b < 0x80 := by simpa using h.1
    obtain ⟨hascii, hchar⟩ := utf8EncodeChar_ascii hbytes
    obtain ⟨hrest, heq⟩ := ih h.2
    exact ⟨by simpa [hascii] using hrest, by simp [happend, hchar, heq]⟩

/-- The check of the bytes turns down only what the characters do not match. -/
theorem fuzzyMatchChars_of_asciiRejects {u : Unichar} (hu : u.AgreesOnAscii)
    {pattern text : List Char} (hne : pattern ≠ [])
    (h : asciiRejects (Utf8.encode pattern) (Utf8.encode text)) (wantPositions : Bool) :
    fuzzyMatchChars u pattern text wantPositions = .no := by
  unfold asciiRejects strIsAscii at h
  split_ifs at h with hp ht
  all_goals try simp at h
  obtain ⟨hpascii, hpattern⟩ := encode_ascii hp
  obtain ⟨htascii, htext⟩ := encode_ascii ht
  unfold fuzzyMatchChars
  split_ifs with hlen
  · rfl
  have hupper : (Utf8.encode pattern).any asciiIsUpper = pattern.any u.isUpper := by
    rw [hpattern, List.any_map, List.any_eq, List.any_eq]
    grind [Unichar.AgreesOnAscii]
  have hnot : ¬ Subseq u pattern text := fun hsub => by
    have hfold (cs : List Char) (hascii : ∀ c ∈ cs, c.toNat < 128) (caseSensitive : Bool) :
        (cs.map (foldChar u caseSensitive)).map (fun c => c.toNat.toUInt8) =
          (cs.map fun c => c.toNat.toUInt8).map
            (if caseSensitive then id else CString.toLower) := by
      rw [List.map_map, List.map_map]
      refine List.map_congr_left fun c hc => ?_
      cases caseSensitive <;> simp [foldChar, (hu c (hascii c hc)).2]
    have hbytes := hsub.map fun c : Char => c.toNat.toUInt8
    rw [hfold pattern hpascii, hfold text htascii] at hbytes
    have hsubseq : isAsciiSubsequence (pattern.any u.isUpper) (Utf8.encode pattern)
        (Utf8.encode text) := by
      rwa [isAsciiSubsequence_iff, hpattern, htext]
    rw [hupper, hsubseq] at h
    simp [hpattern, htext] at h
    omega
  obtain ⟨-, hnone⟩ | ⟨lo, hi, hsub, -⟩ :=
    @fuzzyBounds_spec _ _ _ _ (@charsEqual_iff u (pattern.any u.isUpper)) pattern text hne
  · simp [hnone]
  · exact absurd hsub hnot

/-! ## The table -/

/-- A cell after `pre` of the window, in the row after `pattern`: its score is above `NEG_INF / 2`
exactly for a subsequence, and stays small. -/
structure CellSpec (key : Char → β) (pattern pre : List Char) (cell : FuzzyCell) : Prop where
  alive_iff : negInf / 2 < cell.score ↔ pattern.map key <+ pre.map key
  low : negInf / 2 < cell.score → -4 * (pre.length : ℤ) ≤ cell.score
  high : negInf / 2 < cell.score → cell.score ≤ 40 * pattern.length

/-- A cell with a score remembers where the last character is, after a match of the ones before. -/
def PosSpec (key : Char → β) (pattern pre : List Char) (cell : FuzzyCell) : Prop :=
  negInf / 2 < cell.score →
    ∃ t < pre.length, cell.pos = t ∧ pattern.map key <+ (pre.take t).map key

/-- The cells of a row, one after `pre` and one after each further character of the window. -/
def Aligned (spec : List Char → FuzzyCell → Prop) :
    List Char → List FuzzyCell → List Char → Prop
  | pre, [cell], [] => spec pre cell
  | pre, cell :: cells, c :: window => spec pre cell ∧ Aligned spec (pre ++ [c]) cells window
  | _, _, _ => False

theorem Aligned.mono {spec spec' : List Char → FuzzyCell → Prop}
    (hspec : ∀ pre cell, spec pre cell → spec' pre cell) {pre window : List Char}
    {cells : List FuzzyCell} (h : Aligned spec pre cells window) :
    Aligned spec' pre cells window := by
  fun_induction Aligned spec pre cells window <;> grind [Aligned]

theorem Aligned.replicate {spec : List Char → FuzzyCell → Prop} {cell : FuzzyCell}
    (hspec : ∀ pre, spec pre cell) {pre window : List Char} :
    Aligned spec pre (List.replicate (window.length + 1) cell) window := by
  induction window generalizing pre with
  | nil => exact hspec pre
  | cons c window ih => exact ⟨hspec pre, ih⟩

theorem Aligned.get {spec : List Char → FuzzyCell → Prop} {pre window : List Char}
    {cells : List FuzzyCell} (h : Aligned spec pre cells window) {j : ℕ} (hj : j ≤ window.length) :
    ∃ cell, cells[j]? = some cell ∧ spec (pre ++ window.take j) cell := by
  fun_induction Aligned spec pre cells window generalizing j with
  | case1 pre cell => exact ⟨cell, by simp_all, by simpa using h⟩
  | case2 pre cell cells c window ih =>
    cases j with
    | zero => exact ⟨cell, by simp, by simpa using h.1⟩
    | succ j =>
      obtain ⟨cell', hget, hspec⟩ := ih h.2 (by simpa using hj)
      exact ⟨cell', by simpa using hget, by simpa using hspec⟩
  | case3 => exact h.elim

theorem bonusFor_bounds (prev cur : CharClass) :
    0 ≤ bonusFor prev cur ∧ bonusFor prev cur ≤ 10 := by
  cases prev <;> cases cur <;> decide

theorem posBonuses_bounds {u : Unichar} {prev : CharClass} {text : List Char} :
    ∀ x ∈ posBonuses u prev text, 0 ≤ x.2 ∧ x.2 ≤ 10 := by
  fun_induction posBonuses u prev text with
  | case1 => simp
  | case2 prev c cs ih => simpa using ⟨bonusFor_bounds _ _, by simpa using ih⟩

@[simp] theorem map_fst_posBonuses {u : Unichar} {prev : CharClass} {text : List Char} :
    (posBonuses u prev text).map Prod.fst = text := by
  fun_induction posBonuses u prev text <;> simp_all

theorem negInf_half : negInf / 2 = -536870912 := by decide

section Table

variable {ceq : Char → Char → Bool} {ckey : Char → β} {pattern pre : List Char}
  {p c : Char} {diagonal left : FuzzyCell} {posBonus : ℤ}

/-- The score of a match on the diagonal. -/
theorem fuzzyDiagonal_spec (heq : ∀ a b, ceq a b ↔ ckey a = ckey b)
    (hbonus : 0 ≤ posBonus ∧ posBonus ≤ 10) (first : Bool)
    (hdiagonal : CellSpec ckey pattern pre diagonal) (hlen : pre.length < maxTextLen) :
    let d := fuzzyDiagonal ceq first p pre.length diagonal c posBonus
    (negInf / 2 < d.score ↔ ckey p = ckey c ∧ pattern.map ckey <+ pre.map ckey) ∧
      (negInf / 2 < d.score → d.pos = pre.length ∧ -4 * (pre.length : ℤ) ≤ d.score ∧
        d.score ≤ 40 * (pattern.length + 1)) := by
  have hmul : (if first then posBonus * bonusFirstCharMult else posBonus) ∈ Set.Icc 0 20 := by
    cases first <;> simp [bonusFirstCharMult] <;> omega
  obtain ⟨hmul₀, hmul₁⟩ := hmul
  unfold fuzzyDiagonal
  by_cases h : negInf / 2 < diagonal.score ∧ ceq p c
  · have hlow := hdiagonal.low h.1
    have hhigh := hdiagonal.high h.1
    have hsub := hdiagonal.alive_iff.1 h.1
    have hkey := (heq _ _).1 h.2
    simp only [maxTextLen] at hlen
    simp only [if_pos h]
    simp only [hkey, hsub, negInf_half, scoreMatch, true_and, and_true, iff_true] at *
    generalize (if first then posBonus * bonusFirstCharMult else posBonus) = bonus at hmul₀ hmul₁
    split_ifs <;> simp only [bonusConsecutive, scoreGapStart, scoreGapExt] <;> omega
  · have hnot : ¬ (ckey p = ckey c ∧ pattern.map ckey <+ pre.map ckey) := fun hand =>
      h ⟨hdiagonal.alive_iff.2 hand.2, (heq _ _).2 hand.1⟩
    simp only [if_neg h]
    simp [FuzzyCell.none, negInf, hnot]

/-- The cell after one more character. -/
theorem fuzzyCell_spec (heq : ∀ a b, ceq a b ↔ ckey a = ckey b)
    (hbonus : 0 ≤ posBonus ∧ posBonus ≤ 10) (first : Bool)
    (hdiagonal : CellSpec ckey pattern pre diagonal)
    (hleft : CellSpec ckey (pattern ++ [p]) pre left) (hpos : PosSpec ckey pattern pre left)
    (hlen : pre.length < maxTextLen) :
    let cell := fuzzyCell (fuzzyDiagonal ceq first p pre.length diagonal c posBonus) left
    CellSpec ckey (pattern ++ [p]) (pre ++ [c]) cell ∧ PosSpec ckey pattern (pre ++ [c]) cell := by
  intro cell
  obtain ⟨hd, hscore⟩ := fuzzyDiagonal_spec (p := p) (c := c) heq hbonus first hdiagonal hlen
  have hconcat : (pattern ++ [p]).map ckey <+ (pre ++ [c]).map ckey ↔
      (pattern ++ [p]).map ckey <+ pre.map ckey ∨
        ckey p = ckey c ∧ pattern.map ckey <+ pre.map ckey := by
    simp [sublist_concat_concat]
  simp only [maxTextLen] at hlen
  generalize hdcell : fuzzyDiagonal ceq first p pre.length diagonal c posBonus = d at *
  rw [← hleft.alive_iff, ← hd] at hconcat
  have hlow := hleft.low
  have hhigh := hleft.high
  have hgap : (negInf / 2 < left.score → negInf / 2 < fuzzyGap left ∧
      -4 * ((pre.length : ℤ) + 1) ≤ fuzzyGap left ∧ fuzzyGap left ≤ left.score) ∧
      (¬ negInf / 2 < left.score → fuzzyGap left = negInf) := by
    unfold fuzzyGap
    simp only [negInf_half, scoreGapStart, scoreGapExt] at *
    refine ⟨fun h => ?_, fun h => by simp [h]⟩
    split_ifs <;> omega
  have hneg : ¬ negInf / 2 < negInf := by decide
  by_cases hle : fuzzyGap left ≤ d.score
  · have hcell : cell = d := by simp [cell, fuzzyCell, hdcell, hle]
    rw [hcell]
    refine ⟨⟨?_, fun h => ?_, fun h => ?_⟩, fun h => ?_⟩
    · rw [hconcat]
      exact ⟨.inr, fun h => h.elim (fun h => (hgap.1 h).1.trans_le hle) id⟩
    · have := (hscore h).2.1
      simp
      omega
    · simpa using (hscore h).2.2
    · exact ⟨pre.length, by simp, (hscore h).1, by simpa using (hd.1 h).2⟩
  · have hcell : cell = ⟨fuzzyGap left, 0, left.pos⟩ := by simp [cell, fuzzyCell, hdcell, hle]
    have halive (h : negInf / 2 < fuzzyGap left) : negInf / 2 < left.score := by
      by_contra hdead
      exact hneg (hgap.2 hdead ▸ h)
    rw [hcell]
    refine ⟨⟨?_, fun h => ?_, fun h => ?_⟩, fun h => ?_⟩
    · rw [hconcat]
      exact ⟨fun h => .inl (halive h), fun h => h.elim (fun h => (hgap.1 h).1) fun h =>
        h.trans (not_le.1 hle)⟩
    · simpa using (hgap.1 (halive h)).2.1
    · exact (hgap.1 (halive h)).2.2.trans (hhigh (halive h))
    · obtain ⟨t, ht, hat, hsub⟩ := hpos (halive h)
      exact ⟨t, by simp; omega, hat, by rwa [List.take_append_of_le_length ht.le]⟩

/-- What `best_score` and `best_j` say after `pre`. -/
structure BestSpec (key : Char → β) (pattern pre : List Char) (best : ℤ × ℕ) : Prop where
  alive_iff : negInf / 2 < best.1 ↔ pattern.map key <+ pre.map key
  col : negInf / 2 < best.1 → best.2 ≤ pre.length ∧ pattern.map key <+ (pre.take best.2).map key

/-- The best score after one more character. -/
theorem BestSpec.next (heq : ∀ a b, ceq a b ↔ ckey a = ckey b)
    (hbonus : 0 ≤ posBonus ∧ posBonus ≤ 10) (first : Bool)
    (hdiagonal : CellSpec ckey pattern pre diagonal) (hlen : pre.length < maxTextLen) {best : ℤ × ℕ}
    (h : BestSpec ckey (pattern ++ [p]) pre best) :
    let d := fuzzyDiagonal ceq first p pre.length diagonal c posBonus
    BestSpec ckey (pattern ++ [p]) (pre ++ [c])
      (if negInf / 2 < d.score ∧ best.1 < d.score then (d.score, pre.length + 1) else best) := by
  intro d
  obtain ⟨hd, -⟩ := fuzzyDiagonal_spec (p := p) (c := c) heq hbonus first hdiagonal hlen
  have hconcat : (pattern ++ [p]).map ckey <+ (pre ++ [c]).map ckey ↔
      negInf / 2 < best.1 ∨ negInf / 2 < d.score := by
    rw [h.alive_iff, hd]
    simp [sublist_concat_concat]
  split_ifs with hbetter
  · refine ⟨?_, fun _ => ⟨by simp, ?_⟩⟩
    · simp only [hconcat, hbetter.1, or_true]
    rw [List.take_of_length_le (by simp)]
    exact hconcat.2 (.inr hbetter.1)
  · refine ⟨?_, fun halive => ?_⟩
    · rw [hconcat]
      exact ⟨.inl, fun h => h.elim id fun h => by by_contra; exact hbetter ⟨h, by omega⟩⟩
    · obtain ⟨hle, hsub⟩ := h.col halive
      exact ⟨by simp; omega, by rwa [List.take_append_of_le_length hle]⟩

/-- A row of the table, with the best score if it is the last one. -/
theorem fuzzyRow_spec (heq : ∀ a b, ceq a b ↔ ckey a = ckey b) (first last : Bool)
    {window : List (Char × ℤ)} (hbonus : ∀ x ∈ window, 0 ≤ x.2 ∧ x.2 ≤ 10) {prev : List FuzzyCell}
    (hprev : Aligned (CellSpec ckey pattern) pre prev (window.map Prod.fst))
    (hleft : CellSpec ckey (pattern ++ [p]) pre left ∧ PosSpec ckey pattern pre left)
    (hlen : pre.length + window.length ≤ maxTextLen) {best : ℤ × ℕ}
    (hbest : last → BestSpec ckey (pattern ++ [p]) pre best) :
    Aligned (fun pre cell => CellSpec ckey (pattern ++ [p]) pre cell ∧
      PosSpec ckey pattern pre cell) pre
      (left :: (fuzzyRow ceq first last p pre.length prev window left best).1)
      (window.map Prod.fst) ∧
    (last → BestSpec ckey (pattern ++ [p]) (pre ++ window.map Prod.fst)
      (fuzzyRow ceq first last p pre.length prev window left best).2) := by
  induction window generalizing pre prev left best with
  | nil => simpa [fuzzyRow, Aligned, hleft] using hbest
  | cons x window ih =>
    obtain ⟨c, posBonus⟩ := x
    obtain ⟨diagonal, prev, rfl⟩ : ∃ diagonal prev', prev = diagonal :: prev' := by
      cases prev with
      | nil => exact hprev.elim
      | cons diagonal prev => exact ⟨_, _, rfl⟩
    obtain ⟨hdiagonal, hprev⟩ : CellSpec ckey pattern pre diagonal ∧
        Aligned (CellSpec ckey pattern) (pre ++ [c]) prev (window.map Prod.fst) := by
      simpa [Aligned] using hprev
    have hx : 0 ≤ posBonus ∧ posBonus ≤ 10 := hbonus (c, posBonus) List.mem_cons_self
    have hlt : pre.length < maxTextLen := by simp at hlen; omega
    have hcell := fuzzyCell_spec (c := c) heq hx first hdiagonal hleft.1 hleft.2 hlt
    have hnext (hlast : last) := (hbest hlast).next (c := c) heq hx first hdiagonal hlt
    set d := fuzzyDiagonal ceq first p pre.length diagonal c posBonus with hd
    have hbest₁ (hlast : last) : BestSpec ckey (pattern ++ [p]) (pre ++ [c])
        (if last ∧ negInf / 2 < d.score ∧ best.1 < d.score then (d.score, pre.length + 1)
          else best) := by
      simpa [hlast] using hnext hlast
    obtain ⟨hcells, hbest'⟩ := ih (fun x hx => hbonus x (List.mem_cons_of_mem _ hx)) hprev hcell
      (by simp at hlen ⊢; omega) hbest₁
    rw [List.length_append, List.length_singleton] at hcells hbest'
    refine ⟨⟨hleft, hcells⟩, fun hlast => ?_⟩
    simpa [fuzzyRow] using hbest' hlast

/-- The best score is looked for in the last row only. -/
@[simp] theorem fuzzyRow_best (first : Bool) (tj : ℕ) (prev : List FuzzyCell)
    (window : List (Char × ℤ)) (best : ℤ × ℕ) :
    (fuzzyRow ceq first false p tj prev window left best).2 = best := by
  induction window generalizing tj prev left with
  | nil => cases prev <;> rfl
  | cons x window ih =>
    cases prev with
    | nil => rfl
    | cons diagonal prev => simp [fuzzyRow, ih]

theorem cellSpec_none (hne : pattern ≠ []) : CellSpec ckey pattern [] .none := by
  have hdead : ¬ negInf / 2 < FuzzyCell.none.score := by decide
  exact ⟨by simp [hdead, hne], fun h => (hdead h).elim, fun h => (hdead h).elim⟩

/-- What the rows say, the last one first, with the pattern back from the same character. -/
def TraceSpec (key : Char → β) (window : List Char) : List Char → List (List FuzzyCell) → Prop
  | [], [] => True
  | p :: rev, row :: rows =>
    Aligned (fun pre cell => CellSpec key (rev.reverse ++ [p]) pre cell ∧
      PosSpec key rev.reverse pre cell) [] row window ∧ TraceSpec key window rev rows
  | _, _ => False

/-- The whole table. -/
theorem fuzzyRows_spec (heq : ∀ a b, ceq a b ↔ ckey a = ckey b) {window : List (Char × ℤ)}
    (hbonus : ∀ x ∈ window, 0 ≤ x.2 ∧ x.2 ≤ 10) (hlen : window.length ≤ maxTextLen) (first : Bool)
    {rev ps : List Char} (hne : ps ≠ []) {rows : List (List FuzzyCell)} {prev : List FuzzyCell}
    (hrows : TraceSpec ckey (window.map Prod.fst) rev rows)
    (hprev : Aligned (CellSpec ckey rev.reverse) [] prev (window.map Prod.fst)) {best : ℤ × ℕ}
    (hbest : best.1 ≤ negInf / 2) :
    TraceSpec ckey (window.map Prod.fst) (ps.reverse ++ rev)
      (fuzzyRows ceq window first ps rows prev best).1 ∧
    BestSpec ckey (rev.reverse ++ ps) (window.map Prod.fst)
      (fuzzyRows ceq window first ps rows prev best).2 := by
  induction ps generalizing first rev rows prev best with
  | nil => exact absurd rfl hne
  | cons p ps ih =>
    have hnone : CellSpec ckey (rev.reverse ++ [p]) [] .none := cellSpec_none (by simp)
    have hdead : ¬ negInf / 2 < FuzzyCell.none.score := by decide
    have hbest₀ : BestSpec ckey (rev.reverse ++ [p]) [] best :=
      ⟨by simp [hbest], fun h => by omega⟩
    obtain ⟨hcells, hlast⟩ := fuzzyRow_spec heq first (decide (ps = [])) hbonus hprev
      ⟨hnone, fun h => (hdead h).elim⟩ (by simpa using hlen) fun _ => hbest₀
    have hrows' : TraceSpec ckey (window.map Prod.fst) (p :: rev) (_ :: rows) := ⟨hcells, hrows⟩
    cases ps with
    | nil => exact ⟨hrows', by simpa [fuzzyRows] using hlast rfl⟩
    | cons q ps =>
      have hrest := ih false (by simp) hrows' (by simpa using hcells.mono fun _ _ h => h.1) hbest
      simpa [fuzzyRows] using hrest

/-- The positions are read inside of the table. -/
theorem fuzzyTraceback_spec {window rev : List Char} {rows : List (List FuzzyCell)}
    (h : TraceSpec ckey window rev rows) (lo : ℕ) {col : ℕ} (hcol : col ≤ window.length)
    (hsub : rev.reverse.map ckey <+ (window.take col).map ckey) :
    ∃ positions, fuzzyTraceback lo rows col = some positions := by
  induction rev generalizing rows col with
  | nil =>
    cases rows with
    | nil => exact ⟨[], rfl⟩
    | cons row rows => exact h.elim
  | cons p rev ih =>
    cases rows with
    | nil => exact h.elim
    | cons row rows =>
      obtain ⟨hrow, hrows⟩ := h
      obtain ⟨cell, hget, hcell, hpos⟩ := hrow.get hcol
      simp only [List.nil_append] at hcell hpos
      obtain ⟨t, ht, hat, hsub'⟩ := hpos (hcell.alive_iff.2 (by simpa using hsub))
      have hlt : t < col := by simp at ht; omega
      -- the column read next is the one after the position, where there is a match too
      have htake : (window.take (t + 1)).take t = (window.take col).take t := by
        rw [List.take_take, List.take_take, min_eq_left (by omega), min_eq_left (by omega)]
      obtain ⟨positions, hrest⟩ := ih hrows (show t + 1 ≤ window.length by omega)
        ((htake ▸ hsub').trans ((List.take_sublist _ _).map ckey))
      refine ⟨(cell.pos + lo) :: positions, ?_⟩
      have hnext : (cell.pos + 1).toNat = t + 1 := by omega
      simp [fuzzyTraceback, hget, hnext, hrest]

end Table

/-! ## The match -/

theorem cellSpec_zero {key : Char → β} {pre : List Char} : CellSpec key [] pre .zero :=
  ⟨by simp [FuzzyCell.zero, negInf_half], fun _ => by simp [FuzzyCell.zero],
    fun _ => by simp [FuzzyCell.zero]⟩

theorem aligned_zero {key : Char → β} {pre window : List Char} :
    Aligned (CellSpec key []) pre (List.replicate (window.length + 1) .zero) window :=
  .replicate fun _ => cellSpec_zero

/-- A window with a match has a score. -/
theorem fuzzyScore_found (u : Unichar) {eq : Char → Char → Bool} {key : Char → β}
    (heq : ∀ a b, eq a b ↔ key a = key b) {pattern text : List Char} (hne : pattern ≠ [])
    (htext : text.length ≤ maxTextLen) {lo hi : ℕ}
    (hsub : pattern.map key <+ ((text.take hi).drop lo).map key) (wantPositions : Bool) :
    ∃ score positions,
      fuzzyScore u eq pattern text lo hi wantPositions = .found score positions := by
  unfold fuzzyScore
  extract_lets prevClass window
  have hmap : window.map Prod.fst = (text.take hi).drop lo := by simp [window]
  have hlen : window.length ≤ maxTextLen := by
    have := congrArg List.length hmap
    simp at this
    omega
  have hzero := @aligned_zero _ key [] (window.map Prod.fst)
  rw [List.length_map] at hzero
  obtain ⟨htrace, hbest⟩ := fuzzyRows_spec heq posBonuses_bounds hlen true hne
    (show TraceSpec key (window.map Prod.fst) [] [] from trivial) hzero
    (show ((negInf, 0) : ℤ × ℕ).1 ≤ negInf / 2 by decide)
  generalize fuzzyRows eq window true pattern [] _ _ = table at htrace hbest
  obtain ⟨rows, bestScore, bestJ⟩ := table
  simp only [List.reverse_nil, List.nil_append, List.append_nil] at htrace hbest
  have halive : negInf / 2 < bestScore := hbest.alive_iff.2 (by rw [hmap]; exact hsub)
  obtain ⟨hcol, hsub'⟩ := hbest.col halive
  obtain ⟨positions, htraceback⟩ := fuzzyTraceback_spec htrace lo hcol (by simpa using hsub')
  simp only [not_le.2 halive, if_false]
  cases wantPositions with
  | false => exact ⟨_, _, rfl⟩
  | true => exact ⟨bestScore, positions.reverse.take fuzzyMaxPositions, by simp [htraceback]⟩

/-- A match is found exactly where the pattern is a subsequence of the text. The check of the bytes
does not change the answer, the pass back stays in the text and leaves a window with a match, and
the scores always end with one. -/
theorem fuzzyMatch_iff {u : Unichar} (hu : u.AgreesOnAscii) {pattern text : List Char}
    (hpattern : pattern.length ≤ maxPatternLen) (htext : text.length ≤ maxTextLen)
    (wantPositions : Bool) :
    ((∃ score positions, fuzzyMatch u pattern text wantPositions = .found score positions) ↔
      Subseq u pattern text) ∧
    (pattern ≠ [] →
      fuzzyMatch u pattern text wantPositions = fuzzyMatchChars u pattern text wantPositions) ∧
    fuzzyMatch u pattern text wantPositions ≠ .outside ∧
    fuzzyMatch u pattern text wantPositions ≠ .unreachable ∧
    (pattern ≠ [] → ∃ window,
      fuzzyBounds (charsEqual u (pattern.any u.isUpper)) pattern text = some window ∧
      (window = none ↔ ¬ Subseq u pattern text) ∧ ∀ lo hi, window = some (lo, hi) →
        lo < hi ∧ hi ≤ text.length ∧ Subseq u pattern ((text.take hi).drop lo)) := by
  by_cases hne : pattern = []
  · subst hne
    simp [fuzzyMatch, Subseq]
  have hbytes : fuzzyMatch u pattern text wantPositions =
      fuzzyMatchChars u pattern text wantPositions := by
    unfold fuzzyMatch
    rw [if_neg hne]
    split_ifs with hreject
    · exact (fuzzyMatchChars_of_asciiRejects hu hne hreject wantPositions).symm
    · rfl
  have heq := @charsEqual_iff u (pattern.any u.isUpper)
  obtain ⟨hnot, hnone⟩ | ⟨lo, hi, hsub, hsome, hlt, hle, hwindow⟩ :=
    @fuzzyBounds_spec _ _ _ _ heq pattern text hne
  · have hno : fuzzyMatchChars u pattern text wantPositions = .no := by
      unfold fuzzyMatchChars
      split_ifs
      · rfl
      · simp [hnone]
    rw [hbytes, hno]
    exact ⟨⟨by simp, fun h => (hnot h).elim⟩, fun _ => rfl, by simp, by simp,
      fun _ => ⟨none, hnone, ⟨fun _ => hnot, fun _ => rfl⟩, by simp⟩⟩
  · obtain ⟨score, positions, hscore⟩ := fuzzyScore_found u heq hne htext hwindow wantPositions
    have hshort : ¬ (maxPatternLen < pattern.length ∨ maxTextLen < text.length ∨
        text.length < pattern.length) := by
      have := hsub.length_le
      simp at this
      omega
    have hfound : fuzzyMatchChars u pattern text wantPositions = .found score positions := by
      simp [fuzzyMatchChars, hshort, hsome, hscore]
    rw [hbytes, hfound]
    refine ⟨⟨fun _ => hsub, fun _ => ⟨_, _, rfl⟩⟩, fun _ => rfl, by simp, by simp,
      fun _ => ⟨some (lo, hi), hsome, ⟨by simp, fun h => (h hsub).elim⟩, ?_⟩⟩
    rintro lo' hi' heq'
    obtain ⟨rfl, rfl⟩ : lo = lo' ∧ hi = hi' := by simpa using heq'
    exact ⟨hlt, hle, hwindow⟩

/-- The functions of Lean on characters. -/
def leanUnichar : Unichar :=
  ⟨Char.isWhitespace, Char.isLower, Char.isUpper, Char.isDigit, Char.toLower⟩

theorem leanUnichar_agreesOnAscii : leanUnichar.AgreesOnAscii := by
  have hall : ∀ n < 128, leanUnichar.isUpper (Char.ofNat n) = asciiIsUpper n.toUInt8 ∧
      (leanUnichar.toLower (Char.ofNat n)).toNat.toUInt8 = CString.toLower n.toUInt8 := by
    decide
  intro c hc
  simpa using hall c.toNat hc

theorem fuzzyMatch_iff_lspc : ∃ score positions,
    fuzzyMatch leanUnichar "lspc".toList "lsp-client.cpp".toList true = .found score positions :=
  (fuzzyMatch_iff leanUnichar_agreesOnAscii (by decide) (by decide) true).1.2 (by
    unfold Subseq
    decide)

end Medit
