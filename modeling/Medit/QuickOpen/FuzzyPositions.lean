import Medit.QuickOpen.FuzzyMatch
import Mathlib.Tactic.Ring

/-!
# The positions of the fuzzy match

The table keeps one placement for each beginning of the pattern and each beginning of the window.
The loop back reads the column after a position, where it may find a placement that ends at the
position itself.

## Main definitions

* `placementScore` — the score of a placement, from the bonus and gap rules.
* `keptPlacement` — the placement that the table keeps.
* `Undoubled` — no kept placement ends at the position of the next character.

## Main results

* `fuzzyRows_kept` — the cells of the table are those of the kept placements.
* `fuzzyMatch_report_iff` — when the positions are a placement with the score of the match.
-/

namespace Medit

open scoped List

/-! ## Placements -/

/-- The score of a gap. -/
def gapScore : ℕ → ℤ
  | 0 => 0
  | n + 1 => scoreGapStart + n * scoreGapExt

/-- The score of the way from one character to the next one. -/
def linkScore (q q' : ℕ) : ℤ :=
  (if q + 1 = q' then bonusConsecutive else 0) + gapScore (q' - (q + 1))

/-- The score of a placement, given by its positions with the last one first. -/
def placementScore (bonus : ℕ → ℤ) : List ℕ → ℤ
  | [] => 0
  | [q] => scoreMatch + bonus q * bonusFirstCharMult
  | q' :: q :: qs => placementScore bonus (q :: qs) + scoreMatch + bonus q' + linkScore q q'

/-- The score with the gap from the last character to a column. -/
def scoreTo (bonus : ℕ → ℤ) (qs : List ℕ) (column : ℕ) : ℤ :=
  match qs with
  | [] => 0
  | q :: _ => placementScore bonus qs + gapScore (column - (q + 1))

section Kept

variable (fits : Char → ℕ → Bool) (bonus : ℕ → ℤ) (lo : ℕ)

/-- The placement that is kept for a pattern, given from its end, in the first characters of the
window from `lo`: the better one of those that end with the last of the characters and before it,
and of two with the same score the one that ends with it. -/
def keptPlacement : List Char → ℕ → Option (List ℕ)
  | [], _ => some []
  | _ :: _, 0 => none
  | p :: rev, n + 1 =>
    let fresh := if fits p (lo + n) then (keptPlacement rev n).map ((lo + n) :: ·) else none
    match fresh, keptPlacement (p :: rev) n with
    | none, carried => carried
    | some qs, none => some qs
    | some qs, some carried =>
      if scoreTo bonus carried (lo + n + 1) ≤ scoreTo bonus qs (lo + n + 1) then some qs
      else some carried

attribute [elab_as_elim] keptPlacement.induct_unfolding

/-- For each character of the placement, no placement that is kept for the characters before it,
in the text up to and with its position, ends at this position. -/
def KeptApart : List Char → List ℕ → Prop
  | _ :: rev, q :: qs =>
    (keptPlacement fits bonus lo rev (q + 1 - lo)).bind List.head? ≠ some q ∧ KeptApart rev qs
  | _, _ => True

variable {fits bonus lo} {rev : List Char} {p : Char} {n q : ℕ} {qs : List ℕ}

theorem keptPlacement_succ_isSome :
    (keptPlacement fits bonus lo (p :: rev) (n + 1)).isSome ↔
      (fits p (lo + n) ∧ (keptPlacement fits bonus lo rev n).isSome) ∨
        (keptPlacement fits bonus lo (p :: rev) n).isSome := by
  rw [keptPlacement]
  cases hfits : fits p (lo + n) <;> cases keptPlacement fits bonus lo rev n <;>
    cases keptPlacement fits bonus lo (p :: rev) n <;> simp
  split_ifs <;> rfl

/-- A kept placement ends with one of the characters, or is the one that was kept before. -/
theorem keptPlacement_succ (h : keptPlacement fits bonus lo (p :: rev) (n + 1) = some qs) :
    (∃ rest, qs = (lo + n) :: rest ∧ fits p (lo + n) ∧
      keptPlacement fits bonus lo rev n = some rest) ∨
    keptPlacement fits bonus lo (p :: rev) n = some qs := by
  rw [keptPlacement] at h
  cases hfits : fits p (lo + n) <;> cases hrest : keptPlacement fits bonus lo rev n <;>
    cases hcarried : keptPlacement fits bonus lo (p :: rev) n <;>
    simp only [hfits, hrest, hcarried, Option.map_none, Option.map_some, if_true, if_false,
      Bool.false_eq_true] at h ⊢
  all_goals first | exact .inr h | skip
  · exact .inl ⟨_, (Option.some.inj h).symm, trivial, rfl⟩
  · split_ifs at h
    · exact .inl ⟨_, (Option.some.inj h).symm, trivial, rfl⟩
    · exact .inr h

/-- The last position of a kept placement, with the one that is kept before it. -/
theorem keptPlacement_cons (h : keptPlacement fits bonus lo (p :: rev) n = some qs) :
    ∃ q rest, qs = q :: rest ∧ lo ≤ q ∧ q < lo + n ∧ fits p q ∧
      keptPlacement fits bonus lo rev (q - lo) = some rest := by
  induction n with
  | zero => simp [keptPlacement] at h
  | succ n ih =>
    obtain ⟨rest, rfl, hfits, hrest⟩ | hcarried := keptPlacement_succ h
    · exact ⟨lo + n, rest, rfl, by omega, by omega, hfits, by simpa using hrest⟩
    · obtain ⟨q, rest, rfl, hle, hlt, hfits, hrest⟩ := ih hcarried
      exact ⟨q, rest, rfl, hle, by omega, hfits, hrest⟩

/-- What is kept stays until a placement ends with the next character. -/
theorem keptPlacement_of_head_ne (h : keptPlacement fits bonus lo rev n = some qs)
    (hne : (keptPlacement fits bonus lo rev (n + 1)).bind List.head? ≠ some (lo + n)) :
    keptPlacement fits bonus lo rev (n + 1) = some qs := by
  cases rev with
  | nil => simpa [keptPlacement] using h
  | cons p rev =>
    have hsome := keptPlacement_succ_isSome.2 (.inr (Option.isSome_of_eq_some h))
    obtain ⟨qs', hqs'⟩ := Option.isSome_iff_exists.1 hsome
    obtain ⟨rest, rfl, -⟩ | hcarried := keptPlacement_succ hqs'
    · rw [hqs'] at hne
      exact absurd rfl hne
    · rw [hqs', ← hcarried, h]

/-- A placement is kept exactly for a subsequence. -/
theorem keptPlacement_isSome_iff {β : Type*} {eq : Char → Char → Bool} {key : Char → β}
    (heq : ∀ a b, eq a b ↔ key a = key b) {window : List Char}
    (hfits : ∀ k c, window[k]? = some c → ∀ p, fits p (lo + k) = eq p c) (rev : List Char)
    (hn : n ≤ window.length) :
    (keptPlacement fits bonus lo rev n).isSome ↔
      rev.reverse.map key <+ (window.take n).map key := by
  induction n generalizing rev with
  | zero => cases rev <;> simp [keptPlacement]
  | succ n ih =>
    cases rev with
    | nil => simp [keptPlacement]
    | cons p rev =>
      obtain ⟨c, hc⟩ : ∃ c, window[n]? = some c := ⟨_, List.getElem?_eq_getElem hn⟩
      have htake : window.take (n + 1) = window.take n ++ [c] := by simp [List.take_add_one, hc]
      have hcons : (p :: rev).reverse.map key = rev.reverse.map key ++ [key p] := by simp
      rw [keptPlacement_succ_isSome, ih rev (by omega), ih (p :: rev) (by omega), hfits n c hc p,
        heq, htake, hcons, List.map_append, List.map_singleton, sublist_concat_concat, or_comm]

/-- A kept placement takes its positions in their order, each where its character fits. -/
theorem keptPlacement_placed (h : keptPlacement fits bonus lo rev n = some qs) :
    List.Forall₂ (fun p q => fits p q = true) rev qs ∧ qs.Pairwise (· > ·) ∧
      ∀ q ∈ qs, q < lo + n := by
  induction rev generalizing n qs with
  | nil =>
    obtain rfl : qs = [] := by simpa [keptPlacement] using h.symm
    simp
  | cons p rev ih =>
    obtain ⟨q, rest, rfl, hle, hlt, hfits, hrest⟩ := keptPlacement_cons h
    obtain ⟨hall, hpair, hbound⟩ := ih hrest
    have hless : ∀ q' ∈ rest, q' < q := fun q' hq' => by
      have := hbound q' hq'
      omega
    refine ⟨.cons hfits hall, List.pairwise_cons.2 ⟨hless, hpair⟩, List.forall_mem_cons.2
      ⟨hlt, fun q' hq' => (hless q' hq').trans hlt⟩⟩

end Kept

/-! ## The cells of the table -/

section Cells

variable {fits : Char → ℕ → Bool} {bonus : ℕ → ℤ} {lo : ℕ} {rev pre : List Char} {p c : Char}
  {β : Type*} {eq : Char → Char → Bool} {key : Char → β} {cell diagonal left : FuzzyCell}
  {posBonus : ℤ}

/-- The cell of a kept placement, after `n` characters of the window. -/
def KeptSpec (fits : Char → ℕ → Bool) (bonus : ℕ → ℤ) (lo : ℕ) (rev : List Char) (n : ℕ)
    (cell : FuzzyCell) : Prop :=
  ∀ qs, keptPlacement fits bonus lo rev n = some qs → cell.score = scoreTo bonus qs (lo + n) ∧
    match qs with
    | [] => cell.run = 0
    | q :: _ => cell.pos + lo = q ∧ (0 < cell.run ↔ q + 1 = lo + n)

theorem gapScore_succ (n : ℕ) :
    gapScore (n + 1) = gapScore n + if n = 0 then scoreGapStart else scoreGapExt := by
  cases n with
  | zero => simp [gapScore]
  | succ n =>
    simp only [gapScore, Nat.succ_ne_zero, if_false]
    push_cast
    ring

/-- The score of a placement that is carried on by one column. -/
theorem scoreTo_succ {q n : ℕ} (qs : List ℕ) (hlt : q < n) :
    scoreTo bonus (q :: qs) (n + 1) =
      scoreTo bonus (q :: qs) n + if q + 1 = n then scoreGapStart else scoreGapExt := by
  have hsub : n + 1 - (q + 1) = n - (q + 1) + 1 := by omega
  simp only [scoreTo, hsub, gapScore_succ, Nat.sub_eq_zero_iff_le]
  have hiff : n ≤ q + 1 ↔ q + 1 = n := by omega
  simp only [hiff, add_assoc]

/-- The cell on the diagonal is that of the placement with one more character. -/
theorem fuzzyDiagonal_kept {n : ℕ} (hdiagonal : KeptSpec fits bonus lo rev n diagonal) {qs : List ℕ}
    (hqs : keptPlacement fits bonus lo rev n = some qs) (halive : negInf / 2 < diagonal.score)
    (hpc : eq p c) (hbonus : bonus (lo + n) = posBonus) :
    let d := fuzzyDiagonal eq (rev = []) p n diagonal c posBonus
    d.score = placementScore bonus ((lo + n) :: qs) ∧ d.pos + lo = ((lo + n : ℕ) : ℤ) ∧
      0 < d.run := by
  obtain ⟨hscore, hrest⟩ := hdiagonal qs hqs
  simp only [fuzzyDiagonal, if_pos (And.intro halive hpc)]
  cases rev with
  | nil =>
    obtain rfl : qs = [] := by simpa [keptPlacement] using hqs.symm
    simp only at hrest
    simp only [scoreTo] at hscore
    simp [hrest, hscore, placementScore, hbonus, add_comm]
  | cons p' rev =>
    obtain ⟨q, rest, rfl, -, hlt, -⟩ := keptPlacement_cons hqs
    simp only at hrest
    simp only [scoreTo] at hscore
    simp only [hrest.2, hscore, placementScore, linkScore, hbonus, reduceCtorEq, decide_false,
      Bool.false_eq_true, if_false]
    refine ⟨?_, ?_, ?_⟩
    · split_ifs <;> ring
    · push_cast
      ring
    · split_ifs <;> omega

/-- The cell to the left, carried on by one column. -/
theorem fuzzyGap_kept {n : ℕ} (hleft : KeptSpec fits bonus lo (p :: rev) n left) {qs : List ℕ}
    (hqs : keptPlacement fits bonus lo (p :: rev) n = some qs) (halive : negInf / 2 < left.score) :
    fuzzyGap left = scoreTo bonus qs (lo + n + 1) ∧
      ∃ q rest, qs = q :: rest ∧ left.pos + lo = q ∧ q < lo + n := by
  obtain ⟨hscore, hrest⟩ := hleft qs hqs
  obtain ⟨q, rest, rfl, -, hlt, -⟩ := keptPlacement_cons hqs
  simp only at hrest
  refine ⟨?_, q, rest, rfl, hrest.1, hlt⟩
  rw [fuzzyGap, if_pos halive, scoreTo_succ rest hlt, hscore]
  simp only [hrest.2]

/-- A cell of the table is that of the kept placement. -/
theorem fuzzyCell_kept (heq : ∀ a b, eq a b ↔ key a = key b)
    (hpos : 0 ≤ posBonus ∧ posBonus ≤ 10) (hlen : pre.length < maxTextLen)
    (hdiagonal : CellSpec key rev.reverse pre diagonal)
    (hleft : CellSpec key (p :: rev).reverse pre left)
    (hkept : ∀ rev, (keptPlacement fits bonus lo rev pre.length).isSome ↔
      rev.reverse.map key <+ pre.map key)
    (hfits : fits p (lo + pre.length) = eq p c) (hbonus : bonus (lo + pre.length) = posBonus)
    (hdiagonal' : KeptSpec fits bonus lo rev pre.length diagonal)
    (hleft' : KeptSpec fits bonus lo (p :: rev) pre.length left) :
    KeptSpec fits bonus lo (p :: rev) (pre.length + 1)
      (fuzzyCell (fuzzyDiagonal eq (rev = []) p pre.length diagonal c posBonus) left) := by
  obtain ⟨halive, -⟩ := fuzzyDiagonal_spec (p := p) (c := c) heq hpos (rev = []) hdiagonal hlen
  have hdiag := hdiagonal.alive_iff.trans (hkept rev).symm
  have hlft := hleft.alive_iff.trans (hkept (p :: rev)).symm
  have hlow := hleft.low
  have hneg : negInf / 2 = -536870912 ∧ negInf = -1073741824 := by decide
  intro qs hqs
  simp only [keptPlacement, hfits] at hqs
  by_cases hfresh : eq p c ∧ ∃ rest, keptPlacement fits bonus lo rev pre.length = some rest
  · obtain ⟨hpc, rest, hrest⟩ := hfresh
    obtain ⟨hscore, hat, hrun⟩ := fuzzyDiagonal_kept hdiagonal' hrest
      (hdiag.2 (Option.isSome_of_eq_some hrest)) hpc hbonus
    have hd := halive.2 ⟨(heq _ _).1 hpc, hdiagonal.alive_iff.1
      (hdiag.2 (Option.isSome_of_eq_some hrest))⟩
    have hto : scoreTo bonus ((lo + pre.length) :: rest) (lo + pre.length + 1) =
        placementScore bonus ((lo + pre.length) :: rest) := by simp [scoreTo, gapScore]
    generalize fuzzyDiagonal eq (rev = []) p pre.length diagonal c posBonus = d at *
    have hend : d.score = scoreTo bonus ((lo + pre.length) :: rest) (lo + (pre.length + 1)) ∧
        d.pos + lo = ((lo + pre.length : ℕ) : ℤ) ∧
        (0 < d.run ↔ lo + pre.length + 1 = lo + (pre.length + 1)) :=
      ⟨hscore.trans hto.symm, hat, iff_of_true hrun (by omega)⟩
    simp only [hpc, if_true, hrest, Option.map_some] at hqs
    cases hcarried : keptPlacement fits bonus lo (p :: rev) pre.length with
    | none =>
      rw [hcarried] at hlft hqs
      have hdead : ¬ negInf / 2 < left.score := fun h => by simpa using hlft.1 h
      obtain rfl := Option.some.inj hqs
      rw [fuzzyCell, fuzzyGap, if_neg hdead, if_pos (by omega)]
      exact hend
    | some carried =>
      obtain ⟨hgap, q, rest', rfl, hat', hlt⟩ :=
        fuzzyGap_kept hleft' hcarried (hlft.2 (Option.isSome_of_eq_some hcarried))
      rw [hcarried] at hqs
      simp only at hqs
      rw [fuzzyCell, hgap, hscore, ← hto]
      split_ifs at hqs ⊢ with hle
      · obtain rfl := Option.some.inj hqs
        exact hend
      · obtain rfl := Option.some.inj hqs
        exact ⟨rfl, hat', iff_of_false (by simp) (by omega)⟩
  · have hnone : (if eq p c then (keptPlacement fits bonus lo rev pre.length).map
        ((lo + pre.length) :: ·) else none) = none := by
      split_ifs with hpc
      · rw [Option.map_eq_none_iff, Option.eq_none_iff_forall_ne_some]
        exact fun rest hrest => hfresh ⟨hpc, rest, hrest⟩
      · rfl
    rw [hnone] at hqs
    simp only at hqs
    have hd : ¬ negInf / 2 <
        (fuzzyDiagonal eq (rev = []) p pre.length diagonal c posBonus).score := by
      rw [halive, ← heq, ← hdiagonal.alive_iff, hdiag, Option.isSome_iff_exists]
      exact hfresh
    have hleftAlive := hlft.2 (Option.isSome_of_eq_some hqs)
    obtain ⟨hgap, q, rest', rfl, hat', hlt⟩ := fuzzyGap_kept hleft' hqs hleftAlive
    have hlarge : negInf / 2 < fuzzyGap left := by
      have := hlow hleftAlive
      rw [fuzzyGap, if_pos hleftAlive]
      simp only [scoreGapStart, scoreGapExt, maxTextLen] at hlen ⊢
      split_ifs <;> omega
    rw [fuzzyCell, if_neg (by omega)]
    exact ⟨hgap, hat', iff_of_false (by simp) (by omega)⟩

/-- The window as the rows read it: its characters with their bonus are those of the text. -/
structure Reads (fits : Char → ℕ → Bool) (bonus : ℕ → ℤ) (lo : ℕ) (eq : Char → Char → Bool)
    (window : List (Char × ℤ)) : Prop where
  fits : ∀ k x, window[k]? = some x → ∀ p, fits p (lo + k) = eq p x.1
  bonus : ∀ k x, window[k]? = some x → bonus (lo + k) = x.2
  bounds : ∀ x ∈ window, 0 ≤ x.2 ∧ x.2 ≤ 10
  length : window.length ≤ maxTextLen

theorem Reads.kept {window : List (Char × ℤ)} (h : Reads fits bonus lo eq window)
    (heq : ∀ a b, eq a b ↔ key a = key b) (rev : List Char) {n : ℕ} (hn : n ≤ window.length) :
    (keptPlacement fits bonus lo rev n).isSome ↔
      rev.reverse.map key <+ ((window.take n).map Prod.fst).map key := by
  rw [List.map_take]
  refine keptPlacement_isSome_iff heq (fun k c hc p => ?_) rev (by simpa using hn)
  obtain ⟨x, hx, rfl⟩ : ∃ x, window[k]? = some x ∧ x.1 = c := by simpa using hc
  exact h.fits k x hx p

/-- What `best_score` and `best_j` say after `n` characters of the window. -/
def BestKept (fits : Char → ℕ → Bool) (bonus : ℕ → ℤ) (lo : ℕ) (p : Char) (rev : List Char) (n : ℕ)
    (best : ℤ × ℕ) : Prop :=
  negInf / 2 < best.1 → ∃ k < n, best.2 = k + 1 ∧ fits p (lo + k) ∧ ∃ qs,
    keptPlacement fits bonus lo rev k = some qs ∧ best.1 = placementScore bonus ((lo + k) :: qs)

/-- A cell is the one of a subsequence and of the kept placement. -/
def CellKept (fits : Char → ℕ → Bool) (bonus : ℕ → ℤ) (lo : ℕ) (key : Char → β) (rev : List Char)
    (pre : List Char) (cell : FuzzyCell) : Prop :=
  CellSpec key rev.reverse pre cell ∧ KeptSpec fits bonus lo rev pre.length cell

/-- The best score after one more character. -/
theorem BestKept.next (heq : ∀ a b, eq a b ↔ key a = key b) (last : Bool)
    (hdiagonal : CellKept fits bonus lo key rev pre diagonal)
    (hkept : (keptPlacement fits bonus lo rev pre.length).isSome ↔
      rev.reverse.map key <+ pre.map key)
    (hfits : fits p (lo + pre.length) = eq p c) (hbonus : bonus (lo + pre.length) = posBonus)
    (halive : negInf / 2 < (fuzzyDiagonal eq (rev = []) p pre.length diagonal c posBonus).score ↔
      key p = key c ∧ rev.reverse.map key <+ pre.map key) {best : ℤ × ℕ}
    (h : BestKept fits bonus lo p rev pre.length best) :
    let d := fuzzyDiagonal eq (rev = []) p pre.length diagonal c posBonus
    BestKept fits bonus lo p rev (pre.length + 1)
      (if last ∧ negInf / 2 < d.score ∧ best.1 < d.score then (d.score, pre.length + 1)
        else best) := by
  intro d hbest
  split_ifs at hbest ⊢ with hif
  · obtain ⟨hpc, hsub⟩ := halive.1 hif.2.1
    have hpc := (heq p c).2 hpc
    obtain ⟨qs, hqs⟩ := Option.isSome_iff_exists.1 (hkept.2 hsub)
    obtain ⟨hscore, -⟩ :=
      fuzzyDiagonal_kept hdiagonal.2 hqs (hdiagonal.1.alive_iff.2 hsub) hpc hbonus
    exact ⟨pre.length, by omega, rfl, hfits.trans hpc, qs, hqs, hscore⟩
  · obtain ⟨k, hk, hcol⟩ := h hbest
    exact ⟨k, by omega, hcol⟩

/-- A row of the table. -/
theorem fuzzyRow_kept (heq : ∀ a b, eq a b ↔ key a = key b) (last : Bool)
    {before window : List (Char × ℤ)} (hreads : Reads fits bonus lo eq (before ++ window))
    {prev : List FuzzyCell}
    (hprev : Aligned (CellKept fits bonus lo key rev) (before.map Prod.fst) prev
      (window.map Prod.fst))
    (hleft : CellKept fits bonus lo key (p :: rev) (before.map Prod.fst) left)
    (hpos : PosSpec key rev.reverse (before.map Prod.fst) left) {best : ℤ × ℕ}
    (hbest : BestKept fits bonus lo p rev before.length best) :
    Aligned (CellKept fits bonus lo key (p :: rev)) (before.map Prod.fst)
      (left :: (fuzzyRow eq (rev = []) last p before.length prev window left best).1)
      (window.map Prod.fst) ∧
    BestKept fits bonus lo p rev (before ++ window).length
      (fuzzyRow eq (rev = []) last p before.length prev window left best).2 := by
  induction window generalizing before prev left best with
  | nil => simpa [fuzzyRow, Aligned, hleft] using hbest
  | cons x window ih =>
    obtain ⟨c, posBonus⟩ := x
    obtain ⟨diagonal, prev, rfl⟩ : ∃ diagonal prev', prev = diagonal :: prev' := by
      cases prev with
      | nil => exact hprev.elim
      | cons diagonal prev => exact ⟨_, _, rfl⟩
    obtain ⟨hdiagonal, hprev⟩ : CellKept fits bonus lo key rev (before.map Prod.fst) diagonal ∧
        Aligned (CellKept fits bonus lo key rev) (before.map Prod.fst ++ [c]) prev
          (window.map Prod.fst) := by simpa [Aligned] using hprev
    have hx : (before ++ (c, posBonus) :: window)[before.length]? = some (c, posBonus) := by simp
    have hbounds := hreads.bounds (c, posBonus) (by simp)
    have hlt : (before.map Prod.fst).length < maxTextLen := by
      have := hreads.length
      simp at this ⊢
      omega
    have hlen : (before.map Prod.fst).length = before.length := List.length_map _
    have hkept (rev : List Char) :
        (keptPlacement fits bonus lo rev (before.map Prod.fst).length).isSome ↔
          rev.reverse.map key <+ (before.map Prod.fst).map key := by
      have h := hreads.kept heq rev (n := before.length) (by simp)
      rwa [List.take_left, ← hlen] at h
    have hfits : fits p (lo + (before.map Prod.fst).length) = eq p c := by
      rw [hlen]
      exact hreads.fits _ _ hx p
    have hbonus : bonus (lo + (before.map Prod.fst).length) = posBonus := by
      rw [hlen]
      exact hreads.bonus _ _ hx
    have hcell := fuzzyCell_spec (p := p) (c := c) heq hbounds (rev = []) hdiagonal.1
      (by simpa using hleft.1) hpos hlt
    have hcell' := fuzzyCell_kept heq hbounds hlt hdiagonal.1 hleft.1 hkept hfits hbonus hdiagonal.2
      hleft.2
    obtain ⟨halive, -⟩ :=
      fuzzyDiagonal_spec (p := p) (c := c) heq hbounds (rev = []) hdiagonal.1 hlt
    have hbest₁ := (show BestKept fits bonus lo p rev (before.map Prod.fst).length best by
      rwa [hlen]).next heq last hdiagonal (hkept rev) hfits hbonus halive
    rw [hlen] at hcell hcell' hbest₁
    have happ : before ++ (c, posBonus) :: window = (before ++ [(c, posBonus)]) ++ window := by simp
    rw [happ] at hreads ⊢
    have hrest := ih hreads (by simpa using hprev)
      ⟨by simpa using hcell.1, by simpa using hcell'⟩ (by simpa using hcell.2)
      (by simpa using hbest₁)
    simp only [fuzzyRow]
    refine ⟨⟨hleft, ?_⟩, ?_⟩
    · simpa using hrest.1
    · simpa using hrest.2

/-- The rows, the last one first, with the pattern back from the same character. -/
def KeptRows (fits : Char → ℕ → Bool) (bonus : ℕ → ℤ) (lo : ℕ) (key : Char → β)
    (window : List Char) : List Char → List (List FuzzyCell) → Prop
  | [], [] => True
  | p :: rev, row :: rows => Aligned (CellKept fits bonus lo key (p :: rev)) [] row window ∧
    KeptRows fits bonus lo key window rev rows
  | _, _ => False

theorem KeptRows.length {window : List Char} {rows : List (List FuzzyCell)}
    (h : KeptRows fits bonus lo key window rev rows) : rows.length = rev.length := by
  induction rev generalizing rows with
  | nil =>
    cases rows with
    | nil => rfl
    | cons row rows => exact h.elim
  | cons p rev ih =>
    cases rows with
    | nil => exact h.elim
    | cons row rows => rw [List.length_cons, List.length_cons, ih h.2]

/-- The whole table, with the best score of its last row. -/
theorem fuzzyRows_kept (heq : ∀ a b, eq a b ↔ key a = key b) {window : List (Char × ℤ)}
    (hreads : Reads fits bonus lo eq window) {ps : List Char} (hne : ps ≠ [])
    {rows : List (List FuzzyCell)} {prev : List FuzzyCell}
    (hrows : KeptRows fits bonus lo key (window.map Prod.fst) rev rows)
    (hprev : Aligned (CellKept fits bonus lo key rev) [] prev (window.map Prod.fst)) {best : ℤ × ℕ}
    (hbest : best.1 ≤ negInf / 2) :
    KeptRows fits bonus lo key (window.map Prod.fst) (ps.reverse ++ rev)
      (fuzzyRows eq window (rev = []) ps rows prev best).1 ∧
    ∃ p rest, ps.reverse ++ rev = p :: rest ∧ BestKept fits bonus lo p rest window.length
      (fuzzyRows eq window (rev = []) ps rows prev best).2 := by
  induction ps generalizing rev rows prev best with
  | nil => exact absurd rfl hne
  | cons p ps ih =>
    have hdead : ¬ negInf / 2 < FuzzyCell.none.score := by decide
    have hnone : CellKept fits bonus lo key (p :: rev) [] .none :=
      ⟨cellSpec_none (by simp), fun qs hqs => by simp [keptPlacement] at hqs⟩
    obtain ⟨hcells, hlast⟩ := fuzzyRow_kept heq (decide (ps = []))
      (show Reads fits bonus lo eq ([] ++ window) from hreads) hprev hnone (fun h => (hdead h).elim)
      (show BestKept fits bonus lo p rev 0 best from fun h => by omega)
    have hrows' : KeptRows fits bonus lo key (window.map Prod.fst) (p :: rev) (_ :: rows) :=
      ⟨hcells, hrows⟩
    cases ps with
    | nil => exact ⟨hrows', p, rev, rfl, hlast⟩
    | cons q ps =>
      have hrest := ih (by simp) hrows' hcells (by simpa [fuzzyRows] using hbest)
      simpa [fuzzyRows] using hrest

/-! ## The loop back -/

theorem length_fuzzyTraceback {rows : List (List FuzzyCell)} {col : ℕ} {positions : List ℤ}
    (h : fuzzyTraceback lo rows col = some positions) : positions.length = rows.length := by
  induction rows generalizing col positions with
  | nil =>
    obtain rfl : positions = [] := by simpa [fuzzyTraceback] using h.symm
    rfl
  | cons row rows ih =>
    obtain ⟨cell, -, rest, hrest, rfl⟩ : ∃ cell, row[col]? = some cell ∧ ∃ rest,
        fuzzyTraceback lo rows (cell.pos + 1).toNat = some rest ∧
        (cell.pos + lo) :: rest = positions := by
      simpa [fuzzyTraceback, Option.bind_eq_some_iff] using h
    simp [ih hrest]

/-- The positions are those of the kept placement if no placement that is read ends at the position
before; otherwise one of them stands twice. -/
theorem fuzzyTraceback_kept {window : List Char} {rows : List (List FuzzyCell)}
    (h : KeptRows fits bonus lo key window rev rows) {col : ℕ} (hcol : col ≤ window.length)
    {qs : List ℕ} (hqs : keptPlacement fits bonus lo rev col = some qs) :
    ∃ positions, fuzzyTraceback lo rows col = some positions ∧
      positions.head? = qs.head?.map (fun q : ℕ => (q : ℤ)) ∧
      (KeptApart fits bonus lo rev qs → positions = qs.map fun q : ℕ => (q : ℤ)) ∧
      (¬ KeptApart fits bonus lo rev qs → ¬ positions.Pairwise (· > ·)) := by
  induction rev generalizing rows col qs with
  | nil =>
    cases rows with
    | cons row rows => exact h.elim
    | nil =>
      obtain rfl : qs = [] := by simpa [keptPlacement] using hqs.symm
      exact ⟨[], rfl, rfl, fun _ => rfl, fun h => (h trivial).elim⟩
  | cons p rev ih =>
    cases rows with
    | nil => exact h.elim
    | cons row rows =>
      obtain ⟨hrow, hrows⟩ := h
      obtain ⟨cell, hget, -, hcell⟩ := hrow.get hcol
      have hlen : (window.take col).length = col := List.length_take_of_le hcol
      rw [List.nil_append, hlen] at hcell
      obtain ⟨-, hat⟩ := hcell qs hqs
      obtain ⟨q, rest, rfl, hle, hlt, -, hrest⟩ := keptPlacement_cons hqs
      simp only at hat
      have hnext : (cell.pos + 1).toNat = q - lo + 1 := by omega
      have hback : q + 1 - lo = q - lo + 1 := by omega
      have hq : lo + (q - lo) = q := by omega
      by_cases hhead : (keptPlacement fits bonus lo rev (q - lo + 1)).bind List.head? = some q
      · obtain ⟨qs', hqs', hhead'⟩ := Option.bind_eq_some_iff.1 hhead
        obtain ⟨positions, htrace, hhd, -⟩ :=
          ih hrows (show q - lo + 1 ≤ window.length by omega) hqs'
        refine ⟨(cell.pos + lo) :: positions, by simp [fuzzyTraceback, hget, hnext, htrace],
          by simp [hat.1], fun hap => ?_, fun _ hpair => ?_⟩
        · rw [KeptApart, hback] at hap
          exact absurd hhead hap.1
        · rw [hhead', Option.map_some] at hhd
          have := List.rel_of_pairwise_cons hpair (List.mem_of_mem_head? hhd)
          omega
      · have hqs' := keptPlacement_of_head_ne hrest (by rw [hq]; exact hhead)
        obtain ⟨positions, htrace, -, hclean, hdouble⟩ :=
          ih hrows (show q - lo + 1 ≤ window.length by omega) hqs'
        have hiff : KeptApart fits bonus lo (p :: rev) (q :: rest) ↔
            KeptApart fits bonus lo rev rest := by
          rw [KeptApart, hback]
          exact and_iff_right hhead
        refine ⟨(cell.pos + lo) :: positions, by simp [fuzzyTraceback, hget, hnext, htrace],
          by simp [hat.1], fun hap => ?_, fun hap hpair => ?_⟩
        · rw [hclean (hiff.1 hap), hat.1, List.map_cons]
        · exact hdouble (fun h => hap (hiff.2 h)) hpair.of_cons

end Cells

/-! ## The window in the text -/

variable {β : Type*} {eq : Char → Char → Bool} {key : Char → β} {u : Unichar}

/-- The pass forward ends at the first character after which there is a match. -/
theorem scanForward_least (heq : ∀ a b, eq a b ↔ key a = key b) {pattern text : List Char}
    {ti e : ℕ} (hne : pattern ≠ []) (h : scanForward eq pattern text ti = some e) :
    ¬ pattern.map key <+ (text.take (e - 1 - ti)).map key := by
  fun_induction scanForward eq pattern text ti with
  | case1 p c cs ti hpc =>
    obtain rfl := Option.some.inj h
    simp
  | case2 p ps c cs ti hpc hps ih =>
    have hspec := scanForward_spec heq ps cs (ti + 1) hps
    rw [h] at hspec
    have hsub : e - 1 - ti = e - 1 - (ti + 1) + 1 := by omega
    rw [hsub, List.take_succ_cons, List.map_cons, List.map_cons, (heq _ _).1 hpc,
      List.cons_sublist_cons]
    exact ih hps h
  | case3 p ps c cs ti hpc ih =>
    have hspec := scanForward_spec heq (p :: ps) cs (ti + 1) hne
    rw [h] at hspec
    have hkey : key p ≠ key c := fun h => hpc ((heq _ _).2 h)
    have hsub : e - 1 - ti = e - 1 - (ti + 1) + 1 := by omega
    rw [hsub, List.take_succ_cons, List.map_cons, List.map_cons, List.cons_sublist_cons']
    exact fun hor => ih hne h (hor.resolve_right fun hand => hkey hand.1)
  | case4 => simp at h

/-- The bonus of the character at a position of the text. -/
def bonusAt (u : Unichar) (text : List Char) (t : ℕ) : ℤ :=
  bonusFor ((text.take t).getLast?.elim .white (classify u)) (text[t]?.elim .white (classify u))

/-- The character at a position of the text is the one of the pattern. -/
def fitsAt (eq : Char → Char → Bool) (text : List Char) (p : Char) (t : ℕ) : Bool :=
  text[t]?.any (eq p)

theorem getElem?_posBonuses (prev : CharClass) (window : List Char) (k : ℕ) :
    (posBonuses u prev window)[k]? = window[k]?.map fun c =>
      (c, bonusFor ((window.take k).getLast?.elim prev (classify u)) (classify u c)) := by
  induction window generalizing prev k with
  | nil => rfl
  | cons c window ih =>
    cases k with
    | zero => rfl
    | succ k =>
      rw [posBonuses, List.getElem?_cons_succ, ih, List.getElem?_cons_succ, List.take_succ_cons,
        List.getLast?_cons]
      cases (window.take k).getLast? <;> rfl

/-- The window with its bonus is read from the text. -/
theorem reads_posBonuses {text : List Char} (hlen : text.length ≤ maxTextLen)
    (lo hi : ℕ) :
    Reads (fitsAt eq text) (bonusAt u text) lo eq
      (posBonuses u ((text.take lo).getLast?.elim .white (classify u))
        ((text.take hi).drop lo)) := by
  set window := (text.take hi).drop lo with hwindow
  have hget {k : ℕ} {c : Char} (hc : window[k]? = some c) :
      text[lo + k]? = some c ∧ text.take (lo + k) = text.take lo ++ window.take k := by
    rw [hwindow, List.getElem?_drop, List.getElem?_take] at hc
    split_ifs at hc with hk
    refine ⟨hc, ?_⟩
    rw [hwindow, List.take_drop, List.take_take, min_eq_left hk.le]
    conv_lhs => rw [← List.take_append_drop lo (text.take (lo + k)), List.take_take,
      min_eq_left (Nat.le_add_right lo k)]
  have hx {k : ℕ} {x : Char × ℤ} (h : (posBonuses u ((text.take lo).getLast?.elim .white
      (classify u)) window)[k]? = some x) : ∃ c, text[lo + k]? = some c ∧
      x = (c, bonusAt u text (lo + k)) := by
    rw [getElem?_posBonuses, Option.map_eq_some_iff] at h
    obtain ⟨c, hc, rfl⟩ := h
    obtain ⟨hat, htake⟩ := hget hc
    refine ⟨c, hat, ?_⟩
    rw [bonusAt, hat, htake, List.getLast?_append]
    cases (window.take k).getLast? <;> rfl
  refine ⟨fun k x h p => ?_, fun k x h => ?_, posBonuses_bounds, ?_⟩
  · obtain ⟨c, hc, rfl⟩ := hx h
    simp [fitsAt, hc]
  · obtain ⟨c, -, rfl⟩ := hx h
    rfl
  · have hfst := congrArg List.length (@map_fst_posBonuses u
      ((text.take lo).getLast?.elim .white (classify u)) window)
    rw [List.length_map] at hfst
    rw [hfst, hwindow, List.length_drop, List.length_take]
    omega

/-! ## The match -/

/-- The positions that a match reports: they increase, the characters of the text at them are those
of the pattern, and the score of the match is the one of this placement. -/
structure FuzzyReport (u : Unichar) (pattern text : List Char) (score : ℤ) (positions : List ℤ) :
    Prop where
  increasing : positions.Pairwise (· < ·)
  chars : List.Forall₂ (fun p (q : ℤ) => ∃ (t : ℕ) (c : Char), q = t ∧ text[t]? = some c ∧
    charsEqual u (pattern.any u.isUpper) p c) pattern positions
  score : placementScore (bonusAt u text) (positions.reverse.map Int.toNat) = score

/-- In the best placement, the placement kept for the characters before one never ends at the
position of this one. -/
def Undoubled (u : Unichar) (pattern text : List Char) : Prop :=
  let eq := charsEqual u (pattern.any u.isUpper)
  ∀ lo hi, fuzzyBounds eq pattern text = some (some (lo, hi)) → ∀ qs,
    keptPlacement (fitsAt eq text) (bonusAt u text) lo pattern.reverse (hi - lo) = some qs →
      KeptApart (fitsAt eq text) (bonusAt u text) lo pattern.reverse qs

/-- What is found in the window: the score of the kept placement, and the positions read back. -/
theorem fuzzyScore_kept (heq : ∀ a b, eq a b ↔ key a = key b) {pattern text : List Char}
    (hne : pattern ≠ []) (htext : text.length ≤ maxTextLen) {lo hi : ℕ}
    (hbounds : fuzzyBounds eq pattern text = some (some (lo, hi))) :
    ∃ qs positions, keptPlacement (fitsAt eq text) (bonusAt u text) lo pattern.reverse (hi - lo) =
        some qs ∧
      (KeptApart (fitsAt eq text) (bonusAt u text) lo pattern.reverse qs →
        positions = qs.map fun q : ℕ => (q : ℤ)) ∧
      (¬ KeptApart (fitsAt eq text) (bonusAt u text) lo pattern.reverse qs →
        ¬ positions.Pairwise (· > ·)) ∧
      positions.length = pattern.length ∧
      fuzzyScore u eq pattern text lo hi true =
        .found (placementScore (bonusAt u text) qs) (positions.reverse.take fuzzyMaxPositions) := by
  obtain ⟨hlt, hle, hsub⟩ : lo < hi ∧ hi ≤ text.length ∧
      pattern.map key <+ ((text.take hi).drop lo).map key := by
    obtain ⟨-, hnone⟩ | ⟨lo', hi', -, hsome, hspec⟩ :=
      @fuzzyBounds_spec _ _ eq key heq pattern text hne
    · simp [hnone] at hbounds
    · obtain ⟨rfl, rfl⟩ : lo' = lo ∧ hi' = hi := by simpa [hsome] using hbounds
      exact hspec
  have hleast : ¬ pattern.map key <+ (text.take (hi - 1)).map key := by
    unfold fuzzyBounds at hbounds
    cases hscan : scanForward eq pattern text 0 with
    | none => simp [hscan] at hbounds
    | some e =>
      obtain rfl : e = hi := by
        simp only [hscan, Option.map_eq_some_iff, Option.some.injEq, Prod.mk.injEq] at hbounds
        obtain ⟨_, -, -, h⟩ := hbounds
        exact h
      exact scanForward_least heq hne hscan
  unfold fuzzyScore
  extract_lets prevClass window
  have hreads : Reads (fitsAt eq text) (bonusAt u text) lo eq window :=
    reads_posBonuses htext lo hi
  have hmap : window.map Prod.fst = (text.take hi).drop lo := by simp [window]
  have hlen : window.length = hi - lo := by
    rw [← List.length_map (f := Prod.fst), hmap, List.length_drop, List.length_take,
      min_eq_left hle]
  -- there is no match before the last character of the window
  have hearly {n : ℕ} (hn : n < hi - lo) :
      keptPlacement (fitsAt eq text) (bonusAt u text) lo pattern.reverse n = none := by
    rw [← Option.not_isSome_iff_eq_none, hreads.kept heq _ (by omega), List.reverse_reverse,
      List.map_take, hmap, List.take_drop, List.take_take, min_eq_left (by omega)]
    refine fun h => hleast (h.trans (List.Sublist.map key ((List.drop_sublist _ _).trans ?_)))
    exact List.take_sublist_take_left (by omega)
  have hzero : Aligned (CellKept (fitsAt eq text) (bonusAt u text) lo key []) []
      (List.replicate (window.length + 1) .zero) (window.map Prod.fst) := by
    rw [← List.length_map (f := Prod.fst)]
    refine .replicate fun pre => ⟨cellSpec_zero, fun qs hqs => ?_⟩
    obtain rfl : qs = [] := by simpa [keptPlacement] using hqs.symm
    exact ⟨rfl, rfl⟩
  have hnil : KeptRows (fitsAt eq text) (bonusAt u text) lo key (window.map Prod.fst) [] [] :=
    trivial
  have hnil' : TraceSpec key (window.map Prod.fst) [] [] := trivial
  have hdead : ((negInf, 0) : ℤ × ℕ).1 ≤ negInf / 2 := by decide
  obtain ⟨hrows, p, rest, hrev, hbest⟩ := fuzzyRows_kept heq hreads hne hnil hzero hdead
  have hbest' := (fuzzyRows_spec heq hreads.bounds hreads.length true hne hnil'
    (hzero.mono fun _ _ h => h.1) hdead).2
  rw [List.append_nil] at hrows hrev
  simp only [decide_true] at hrows hbest
  generalize fuzzyRows eq window true pattern [] _ _ = table at hrows hbest hbest'
  obtain ⟨rows, bestScore, bestJ⟩ := table
  have halive : negInf / 2 < bestScore := hbest'.alive_iff.2 (by simpa [hmap] using hsub)
  obtain ⟨k, hk, hcol, hfits, qs, hqs, hscore⟩ := hbest halive
  simp only at hrows hcol hscore
  have hsome : (keptPlacement (fitsAt eq text) (bonusAt u text) lo (p :: rest) (k + 1)).isSome :=
    keptPlacement_succ_isSome.2 (.inl ⟨hfits, Option.isSome_of_eq_some hqs⟩)
  rw [← hrev] at hsome
  have hkeq : k + 1 = hi - lo := by
    by_contra hne'
    rw [hearly (by omega)] at hsome
    simp at hsome
  obtain ⟨qs', hqs'⟩ := Option.isSome_iff_exists.1 hsome
  obtain rfl : qs' = (lo + k) :: qs := by
    rw [hrev] at hqs'
    obtain ⟨rest', rfl, -, hrest'⟩ | hcarried := keptPlacement_succ hqs'
    · rw [hqs] at hrest'
      rw [Option.some.inj hrest']
    · rw [← hrev, hearly (by omega)] at hcarried
      simp at hcarried
  obtain ⟨positions, htrace, -, happart, hdouble⟩ :=
    fuzzyTraceback_kept hrows (show bestJ ≤ _ by simp; omega) (by rw [hcol]; exact hqs')
  have hlength : positions.length = pattern.length := by
    rw [length_fuzzyTraceback htrace, hrows.length, List.length_reverse]
  refine ⟨_, positions, by rw [← hkeq]; exact hqs', happart, hdouble, hlength, ?_⟩
  rw [hscore] at halive ⊢
  simp only [not_le.2 halive, if_false, if_true, htrace]

/-- The positions of a match are a placement with its score exactly where no kept placement ends at
the position of the next character: otherwise two of them are the same. -/
theorem fuzzyMatch_report_iff {u : Unichar} {pattern text : List Char}
    (hlen : pattern.length ≤ fuzzyMaxPositions) {score : ℤ} {positions : List ℤ}
    (h : fuzzyMatch u pattern text true = .found score positions) :
    FuzzyReport u pattern text score positions ↔ Undoubled u pattern text := by
  unfold fuzzyMatch at h
  split_ifs at h with hne hreject
  · subst hne
    obtain ⟨rfl, rfl⟩ : 0 = score ∧ [] = positions := by simpa using h
    refine iff_of_true ⟨.nil, .nil, rfl⟩ fun lo hi hbounds => ?_
    have hnone : fuzzyBounds (charsEqual u false) [] text = some none := by
      cases text <;> rfl
    simp [hnone] at hbounds
  unfold fuzzyMatchChars at h
  split_ifs at h with hlong
  dsimp only at h
  have heq := @charsEqual_iff u (pattern.any u.isUpper)
  match hbounds : fuzzyBounds (charsEqual u (pattern.any u.isUpper)) pattern text with
  | none => simp [hbounds] at h
  | some none => simp [hbounds] at h
  | some (some (lo, hi)) =>
    obtain ⟨qs, found, hqs, happart, hdouble, hlength, hscore⟩ :=
      fuzzyScore_kept (u := u) heq hne (by omega) hbounds
    simp only [hbounds, hscore] at h
    obtain ⟨rfl, rfl⟩ : placementScore (bonusAt u text) qs = score ∧
        found.reverse.take fuzzyMaxPositions = positions := by simpa using h
    rw [List.take_of_length_le (by simpa [hlength] using hlen)]
    have hiff : Undoubled u pattern text ↔
        KeptApart (fitsAt (charsEqual u (pattern.any u.isUpper)) text) (bonusAt u text) lo
          pattern.reverse qs := by
      refine ⟨fun h => h lo hi hbounds qs hqs, fun h lo' hi' hbounds' qs' hqs' => ?_⟩
      obtain ⟨rfl, rfl⟩ : lo = lo' ∧ hi = hi' := by simpa [hbounds] using hbounds'
      obtain rfl : qs = qs' := by simpa [hqs] using hqs'
      exact h
    rw [hiff]
    refine ⟨fun hreport => ?_, fun hap => ?_⟩
    · by_contra hap
      exact hdouble hap (by simpa [List.pairwise_reverse] using hreport.increasing)
    · obtain ⟨hall, hpair, -⟩ := keptPlacement_placed hqs
      rw [happart hap]
      refine ⟨?_, ?_, ?_⟩
      · rw [List.pairwise_reverse, List.pairwise_map]
        exact hpair.imp fun h => by omega
      · rw [← List.forall₂_reverse_iff, List.reverse_reverse, List.forall₂_map_right_iff]
        refine hall.imp fun p q hfits => ?_
        obtain ⟨c, hc, hpc⟩ :
            ∃ c, text[q]? = some c ∧ charsEqual u (pattern.any u.isUpper) p c := by
          simpa [fitsAt, Option.any_eq_true] using hfits
        exact ⟨q, c, rfl, hc, hpc⟩
      · rw [List.reverse_reverse, List.map_map]
        simp [Function.comp_def]

/-- `lspc` in `lsp-client.cpp`. -/
theorem fuzzyMatch_report_lspc :
    FuzzyReport leanUnichar "lspc".toList "lsp-client.cpp".toList 97 [0, 1, 2, 4] ↔
      Undoubled leanUnichar "lspc".toList "lsp-client.cpp".toList :=
  fuzzyMatch_report_iff (by decide) (by decide)

/-- Both letters of `aa` are reported at the end of `xa/a`. -/
theorem fuzzyMatch_positions_twice :
    fuzzyMatch leanUnichar "aa".toList "xa/a".toList true = .found 38 [3, 3] ∧
      ¬ ([3, 3] : List ℤ).Pairwise (· < ·) := by
  decide

end Medit
