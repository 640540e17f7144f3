import Mathlib.Data.List.Nodup
import Medit.Library.Nesting

/-!
# Matching brackets

Translation of `moo_text_iter_find_matching_bracket` from `mooedit/mootextbuffer.cpp`. The depth is
counted over the brackets of all pairs, and a bracket that closes one of another pair ends the
search.

## Main definitions

* `findMatchingBracket` — `moo_text_iter_find_matching_bracket`.
* `IsMatch` — where the depth is zero for the first time is the other bracket of the pair.

## Main results

* `findMatchingBracket_correct` — the brackets found, and that they find each other.
-/

namespace Medit

open Nesting

/-- `MooBracketMatchType`, with the iterator of a bracket that is found. -/
inductive BracketMatch
  | notAtBracket
  | none
  | correct (iter : ℕ)
  | incorrect (iter : ℕ)
deriving DecidableEq

/-- `left_brackets` and `right_brackets`. -/
abbrev BracketPairs := List (Char × Char)

def leftBrackets (pairs : BracketPairs) (c : Char) : Bool := (pairs.map Prod.fst).contains c

def rightBrackets (pairs : BracketPairs) (c : Char) : Bool := (pairs.map Prod.snd).contains c

/-- The loop of the search over the characters that `b` goes over, with those left up to the limit:
the kind of the bracket at which it stops and the number of characters to it. -/
def bracketLoop (bracketToFind : Char) (sameDirection inverseDirection : Char → Bool) :
    ℕ → ℕ → ℕ → List Char → Option (Bool × ℕ)
  | _, _, _, [] => none
  | 0, _, _, _ :: _ => none
  | limit + 1, stack, n, c :: ahead =>
    if c = bracketToFind ∧ stack = 0 then some (true, n + 1)
    else if sameDirection c then
      bracketLoop bracketToFind sameDirection inverseDirection limit (stack + 1) (n + 1) ahead
    else if inverseDirection c then
      if stack ≠ 0 then
        bracketLoop bracketToFind sameDirection inverseDirection limit (stack - 1) (n + 1) ahead
      else some (false, n + 1)
    else bracketLoop bracketToFind sameDirection inverseDirection limit stack (n + 1) ahead

/-- A negative limit is the largest `int`. -/
def searchLimit (limit : ℤ) : ℕ := (if limit < 0 then 2147483647 else limit).toNat

/-- `moo_text_iter_find_matching_bracket` -/
def findMatchingBracket (pairs : BracketPairs) (text : List Char) (iter : ℕ) (limit : ℤ) :
    BracketMatch :=
  let limit := searchLimit limit
  match text[iter]? with
  | none => .notAtBracket
  | some bracket =>
    match pairs.find? (·.1 = bracket) with
    | some pair =>
      match bracketLoop pair.2 (leftBrackets pairs) (rightBrackets pairs) limit 0 0
          (text.drop (iter + 1)) with
      | none => .none
      | some (true, n) => .correct (iter + n)
      | some (false, n) => .incorrect (iter + n)
    | none =>
      match pairs.find? (·.2 = bracket) with
      | none => .notAtBracket
      | some pair =>
        match bracketLoop pair.1 (rightBrackets pairs) (leftBrackets pairs) limit 0 0
            (text.take iter).reverse with
        | none => .none
        | some (true, n) => .correct (iter - n)
        | some (false, n) => .incorrect (iter - n)

/-- The first position in the direction of the bracket at `i`, and not more than `limit` characters
away, at which the depth over all brackets is zero has the other bracket of the pair. -/
def IsMatch (pairs : BracketPairs) (text : List Char) (limit : ℕ) (i j : ℕ) : Prop :=
  ∃ pair ∈ pairs, ∃ n ≤ limit,
    (text[i]? = some pair.1 ∧ text[j]? = some pair.2 ∧ j = i + n ∧
      FirstZero (leftBrackets pairs) (rightBrackets pairs) (text.drop (i + 1)) n) ∨
    (text[i]? = some pair.2 ∧ text[j]? = some pair.1 ∧ i = j + n ∧
      FirstZero (rightBrackets pairs) (leftBrackets pairs) (text.take i).reverse n)

/-! ## The loop -/

section Loop

variable {bracketToFind : Char} {same inverse : Char → Bool}

/-- With `stack` brackets open besides the first, the bracket that is looked for is behind `k`
further characters, within the limit, and closes the first one. -/
structure ClosesAfter (bracketToFind : Char) (same inverse : Char → Bool) (stack : ℤ) (limit : ℕ)
    (ahead : List Char) (k : ℕ) : Prop where
  lt_limit : k < limit
  bracket : ahead[k]? = some bracketToFind
  zero : stack + (1 + level same inverse (ahead.take (k + 1))) = 0
  pos : ∀ m ≤ k, 0 < stack + (1 + level same inverse (ahead.take m))

theorem closesAfter_cons_zero {stack : ℤ} {limit : ℕ} {c : Char} {ahead : List Char} :
    ClosesAfter bracketToFind same inverse stack (limit + 1) (c :: ahead) 0 ↔
      c = bracketToFind ∧ stack + (1 + level same inverse [c]) = 0 ∧ 0 < stack + 1 := by
  constructor
  · intro h
    exact ⟨by simpa using h.bracket, by simpa using h.zero, by simpa using h.pos 0 le_rfl⟩
  · rintro ⟨hc, hzero, hpos⟩
    refine ⟨Nat.succ_pos _, by simpa using hc, by simpa using hzero, fun m hm => ?_⟩
    rw [Nat.le_zero.1 hm]
    simpa using hpos

theorem closesAfter_cons_succ {stack : ℤ} {limit k : ℕ} {c : Char} {ahead : List Char} :
    ClosesAfter bracketToFind same inverse stack (limit + 1) (c :: ahead) (k + 1) ↔
      0 < stack + 1 ∧
        ClosesAfter bracketToFind same inverse (stack + level same inverse [c]) limit ahead k := by
  constructor
  · intro h
    refine ⟨by simpa using h.pos 0 (Nat.zero_le _), by simpa using h.lt_limit,
      by simpa using h.bracket, ?_, fun m hm => ?_⟩
    · have hzero := h.zero
      rw [List.take_succ_cons, level_cons] at hzero
      omega
    · have hpos := h.pos (m + 1) (Nat.succ_le_succ hm)
      rw [List.take_succ_cons, level_cons] at hpos
      omega
  · rintro ⟨hstack, h⟩
    refine ⟨by simpa using h.lt_limit, by simpa using h.bracket, ?_, fun m hm => ?_⟩
    · have hzero := h.zero
      rw [List.take_succ_cons, level_cons]
      omega
    · cases m with
      | zero => simpa using hstack
      | succ m =>
        have hpos := h.pos m (Nat.le_of_succ_le_succ hm)
        rw [List.take_succ_cons, level_cons]
        omega

/-- A first bracket that has been closed already is not closed again. -/
theorem not_closesAfter {stack : ℤ} (hstack : stack < 0) {limit k : ℕ} {ahead : List Char} :
    ¬ ClosesAfter bracketToFind same inverse stack limit ahead k := by
  intro h
  have hpos := h.pos 0 (Nat.zero_le _)
  simp only [List.take_zero, level_nil] at hpos
  omega

/-- The search ends at the right bracket where the depth is zero for the first time. -/
theorem bracketLoop_eq_true_iff (hdisj : ∀ c, same c → inverse c = false)
    (hfind : inverse bracketToFind) (limit stack n : ℕ) (ahead : List Char) (r : ℕ) :
    bracketLoop bracketToFind same inverse limit stack n ahead = some (true, r) ↔
      ∃ k, r = n + (k + 1) ∧ ClosesAfter bracketToFind same inverse stack limit ahead k := by
  have hsame : same bracketToFind = false := by
    by_contra h
    rw [hdisj _ (by simpa using h)] at hfind
    exact absurd hfind (by simp)
  induction ahead generalizing limit stack n with
  | nil => exact ⟨fun h => by simp [bracketLoop] at h, fun ⟨k, _, h⟩ => by simpa using h.bracket⟩
  | cons c ahead ih =>
    cases limit with
    | zero =>
      exact ⟨fun h => by simp [bracketLoop] at h,
        fun ⟨k, _, h⟩ => absurd h.lt_limit (Nat.not_lt_zero _)⟩
    | succ limit =>
      -- a bracket that is not the one looked for changes the depth only
      have hskip (stack' : ℕ) (hstack : (stack' : ℤ) = stack + level same inverse [c])
          (hnot : ¬ (c = bracketToFind ∧ stack = 0)) :
          bracketLoop bracketToFind same inverse limit stack' (n + 1) ahead = some (true, r) ↔
            ∃ k, r = n + (k + 1) ∧
              ClosesAfter bracketToFind same inverse stack (limit + 1) (c :: ahead) k := by
        refine (ih limit stack' (n + 1)).trans ?_
        rw [hstack]
        constructor
        · rintro ⟨k, hr, h⟩
          exact ⟨k + 1, by omega, closesAfter_cons_succ.2 ⟨by omega, h⟩⟩
        · rintro ⟨_ | k, hr, h⟩
          · obtain ⟨rfl, hzero, -⟩ := closesAfter_cons_zero.1 h
            rw [level_close hsame hfind] at hzero
            exact absurd ⟨rfl, by omega⟩ hnot
          · exact ⟨k, by omega, (closesAfter_cons_succ.1 h).2⟩
      rw [bracketLoop]
      split_ifs with hfound hopen hclose hstack
      · obtain ⟨rfl, rfl⟩ := hfound
        constructor
        · intro h
          exact ⟨0, by simpa using h.symm, closesAfter_cons_zero.2
            ⟨rfl, by rw [level_close hsame hfind]; rfl, by decide⟩⟩
        · rintro ⟨_ | k, hr, h⟩
          · rw [hr]
          · have h' := (closesAfter_cons_succ.1 h).2
            rw [level_close hsame hfind] at h'
            exact absurd h' (not_closesAfter (by decide))
      · exact hskip (stack + 1) (by rw [level_open hopen (hdisj c hopen)]; rfl) hfound
      · refine hskip (stack - 1) ?_ hfound
        rw [level_close (by simpa using hopen) hclose]
        omega
      · -- a bracket of another pair closes the first one
        have hlevel : level same inverse [c] = -1 := level_close (by simpa using hopen) hclose
        refine ⟨nofun, ?_⟩
        rintro ⟨_ | k, hr, h⟩
        · exact absurd ⟨(closesAfter_cons_zero.1 h).1, not_not.1 hstack⟩ hfound
        · have h' := (closesAfter_cons_succ.1 h).2
          rw [hlevel, not_not.1 hstack] at h'
          exact absurd h' (not_closesAfter (by decide))
      · refine hskip stack ?_ hfound
        rw [level_other (by simpa using hopen) (by simpa using hclose), add_zero]

theorem closesAfter_zero_iff {limit k : ℕ} {ahead : List Char} :
    ClosesAfter bracketToFind same inverse 0 limit ahead k ↔
      k + 1 ≤ limit ∧ ahead[k]? = some bracketToFind ∧ FirstZero same inverse ahead (k + 1) := by
  constructor
  · intro h
    refine ⟨h.lt_limit, h.bracket, by simpa using h.zero, fun m hm => ?_⟩
    simpa using h.pos m (Nat.le_of_lt_succ hm)
  · rintro ⟨hlimit, hbracket, hzero, hpos⟩
    exact ⟨hlimit, hbracket, by simpa using hzero,
      fun m hm => by simpa using hpos m (Nat.lt_succ_of_le hm)⟩

end Loop

/-! ## The match -/

section Match

variable {pairs : BracketPairs} {text : List Char}

theorem leftBrackets_iff {c : Char} : leftBrackets pairs c ↔ ∃ p ∈ pairs, p.1 = c := by
  simp [leftBrackets]

theorem rightBrackets_iff {c : Char} : rightBrackets pairs c ↔ ∃ p ∈ pairs, p.2 = c := by
  simp [rightBrackets]

/-- The characters of the pairs are distinct. -/
def DistinctBrackets (pairs : BracketPairs) : Prop :=
  (pairs.map Prod.fst ++ pairs.map Prod.snd).Nodup

instance (pairs : BracketPairs) : Decidable (DistinctBrackets pairs) :=
  inferInstanceAs (Decidable (List.Nodup _))

variable (h : DistinctBrackets pairs)
include h

theorem DistinctBrackets.ne {p q : Char × Char} (hp : p ∈ pairs) (hq : q ∈ pairs) :
    p.1 ≠ q.2 := fun heq =>
  (List.nodup_append.1 h).2.2 _ (List.mem_map_of_mem hp) _ (List.mem_map_of_mem hq) heq

theorem DistinctBrackets.left_right {c : Char} (hc : leftBrackets pairs c) :
    rightBrackets pairs c = false := by
  obtain ⟨p, hp, rfl⟩ := leftBrackets_iff.1 hc
  by_contra hright
  obtain ⟨q, hq, heq⟩ := rightBrackets_iff.1 (by simpa using hright)
  exact h.ne hp hq heq.symm

theorem DistinctBrackets.right_left {c : Char} (hc : rightBrackets pairs c) :
    leftBrackets pairs c = false := by
  by_contra hleft
  rw [h.left_right (by simpa using hleft)] at hc
  exact absurd hc (by simp)

omit h in
theorem mem_of_find {f : Char × Char → Char} {c : Char} {p : Char × Char}
    (hfind : pairs.find? (f · = c) = some p) : p ∈ pairs ∧ f p = c :=
  ⟨List.mem_of_find?_eq_some hfind, by simpa using List.find?_some hfind⟩

theorem DistinctBrackets.find_left {p : Char × Char} (hp : p ∈ pairs) :
    pairs.find? (·.1 = p.1) = some p := by
  obtain ⟨q, hq⟩ : ∃ q, pairs.find? (·.1 = p.1) = some q :=
    Option.isSome_iff_exists.1 (List.find?_isSome.2 ⟨p, hp, by simp⟩)
  obtain ⟨hmem, heq⟩ := mem_of_find hq
  rw [hq, List.inj_on_of_nodup_map (List.nodup_append.1 h).1 hmem hp heq]

theorem DistinctBrackets.find_right {p : Char × Char} (hp : p ∈ pairs) :
    pairs.find? (·.2 = p.2) = some p := by
  obtain ⟨q, hq⟩ : ∃ q, pairs.find? (·.2 = p.2) = some q :=
    Option.isSome_iff_exists.1 (List.find?_isSome.2 ⟨p, hp, by simp⟩)
  obtain ⟨hmem, heq⟩ := mem_of_find hq
  rw [hq, List.inj_on_of_nodup_map (List.nodup_append.1 h).2.1 hmem hp heq]

/-- A match goes both ways. -/
theorem IsMatch.symm {limit i j : ℕ} (hmatch : IsMatch pairs text limit i j) :
    IsMatch pairs text limit j i := by
  obtain ⟨p, hp, n, hn, ⟨hi, hj, rfl, hzero⟩ | ⟨hi, hj, rfl, hzero⟩⟩ := hmatch
  all_goals
    have hleft : leftBrackets pairs p.1 := leftBrackets_iff.2 ⟨p, hp, rfl⟩
    have hright : rightBrackets pairs p.2 := rightBrackets_iff.2 ⟨p, hp, rfl⟩
    have hleft' := h.left_right hleft
    have hright' := h.right_left hright
  · exact ⟨p, hp, n, hn, .inr ⟨hj, hi, rfl, hzero.mirror hi hj (level_open hleft hleft')
      (level_close hright' hright)⟩⟩
  · exact ⟨p, hp, n, hn, .inl ⟨hj, hi, rfl, hzero.mirror_back hj hi (level_open hright hright')
      (level_close hleft' hleft)⟩⟩

/-- From a left bracket. -/
theorem find_left_eq_correct_iff {p : Char × Char} (hp : p ∈ pairs) {i : ℕ}
    (hi : text[i]? = some p.1) (j : ℕ) (limit : ℤ) :
    findMatchingBracket pairs text i limit = .correct j ↔
      IsMatch pairs text (searchLimit limit) i j := by
  have hloop := bracketLoop_eq_true_iff (fun c => h.left_right (c := c))
    (rightBrackets_iff.2 ⟨p, hp, rfl⟩) (searchLimit limit) 0 0 (text.drop (i + 1))
  have hfound : findMatchingBracket pairs text i limit = .correct j ↔
      ∃ r, j = i + r ∧ bracketLoop p.2 (leftBrackets pairs) (rightBrackets pairs)
        (searchLimit limit) 0 0 (text.drop (i + 1)) = some (true, r) := by
    simp only [findMatchingBracket, hi, h.find_left hp]
    generalize bracketLoop _ _ _ _ _ _ _ = r
    rcases r with _ | ⟨_ | _, r⟩ <;> simp [eq_comm]
  rw [hfound]
  constructor
  · rintro ⟨r, rfl, hr⟩
    obtain ⟨k, rfl, hk⟩ := (hloop r).1 hr
    obtain ⟨hlimit, hbracket, hzero⟩ := closesAfter_zero_iff.1 hk
    rw [List.getElem?_drop] at hbracket
    exact ⟨p, hp, k + 1, hlimit, .inl ⟨hi, by rw [← hbracket]; congr 1; omega, by omega, hzero⟩⟩
  · rintro ⟨q, hq, n, hn, ⟨hi', hj, rfl, hzero⟩ | ⟨hi', -⟩⟩
    · have hpq := h.find_left hq
      rw [Option.some.inj (hi'.symm.trans hi), h.find_left hp] at hpq
      obtain rfl := Option.some.inj hpq
      obtain ⟨k, rfl⟩ := Nat.exists_eq_add_of_lt hzero.pos
      refine ⟨_, rfl, (hloop _).2 ⟨k, by omega, closesAfter_zero_iff.2 ⟨by omega, ?_, ?_⟩⟩⟩
      · rw [List.getElem?_drop, ← hj]
        congr 1
        omega
      · simpa using hzero
    · exact absurd (Option.some.inj (hi.symm.trans hi')) (h.ne hp hq)

/-- From a right bracket. -/
theorem find_right_eq_correct_iff {p : Char × Char} (hp : p ∈ pairs) {i : ℕ}
    (hi : text[i]? = some p.2) (j : ℕ) (limit : ℤ) :
    findMatchingBracket pairs text i limit = .correct j ↔
      IsMatch pairs text (searchLimit limit) i j := by
  have hlen : i < text.length := (List.getElem?_eq_some_iff.1 hi).1
  have hloop := bracketLoop_eq_true_iff (fun c => h.right_left (c := c))
    (leftBrackets_iff.2 ⟨p, hp, rfl⟩) (searchLimit limit) 0 0 (text.take i).reverse
  have hnone : pairs.find? (·.1 = p.2) = none :=
    List.find?_eq_none.2 fun q hq => by simpa using h.ne hq hp
  have hfound : findMatchingBracket pairs text i limit = .correct j ↔
      ∃ r, j = i - r ∧ bracketLoop p.1 (rightBrackets pairs) (leftBrackets pairs)
        (searchLimit limit) 0 0 (text.take i).reverse = some (true, r) := by
    simp only [findMatchingBracket, hi, hnone, h.find_right hp]
    generalize bracketLoop _ _ _ _ _ _ _ = r
    rcases r with _ | ⟨_ | _, r⟩ <;> simp [eq_comm]
  have hget (k : ℕ) (hk : k < i) : (text.take i).reverse[k]? = text[i - (k + 1)]? := by
    have hk' : k < (text.take i).length := by simpa [hlen.le] using hk
    rw [List.getElem?_reverse hk', List.length_take_of_le hlen.le,
      List.getElem?_take_of_lt (by omega)]
    congr 1
    omega
  rw [hfound]
  constructor
  · rintro ⟨r, rfl, hr⟩
    obtain ⟨k, rfl, hk⟩ := (hloop r).1 hr
    obtain ⟨hlimit, hbracket, hzero⟩ := closesAfter_zero_iff.1 hk
    have hki : k < i := by
      have := (List.getElem?_eq_some_iff.1 hbracket).1
      simp at this
      omega
    rw [hget k hki] at hbracket
    exact ⟨p, hp, k + 1, hlimit, .inr ⟨hi, by rw [← hbracket, Nat.zero_add], by omega, hzero⟩⟩
  · rintro ⟨q, hq, n, hn, ⟨hi', -⟩ | ⟨hi', hj, rfl, hzero⟩⟩
    · exact absurd (Option.some.inj (hi'.symm.trans hi)) (h.ne hq hp)
    · have hpq := h.find_right hq
      rw [Option.some.inj (hi'.symm.trans hi), h.find_right hp] at hpq
      obtain rfl := Option.some.inj hpq
      obtain ⟨k, rfl⟩ := Nat.exists_eq_add_of_lt hzero.pos
      refine ⟨_, (Nat.add_sub_cancel ..).symm, (hloop _).2 ⟨k, by omega,
        closesAfter_zero_iff.2 ⟨by omega, ?_, ?_⟩⟩⟩
      · rw [hget k (by omega), ← hj]
        congr 1
        omega
      · simpa using hzero

/-- The search reports a correct match exactly at the first position at which the depth over all
brackets is zero, if the other bracket of the pair is there; and it leads back from there. -/
theorem findMatchingBracket_correct (text : List Char) (limit : ℤ) (i j : ℕ) :
    (findMatchingBracket pairs text i limit = .correct j ↔
      IsMatch pairs text (searchLimit limit) i j) ∧
    (findMatchingBracket pairs text i limit = .correct j →
      findMatchingBracket pairs text j limit = .correct i) := by
  have hiff (i j : ℕ) : findMatchingBracket pairs text i limit = .correct j ↔
      IsMatch pairs text (searchLimit limit) i j := by
    cases hi : text[i]? with
    | none =>
      constructor
      · simp [findMatchingBracket, hi]
      · rintro ⟨p, -, n, -, ⟨hi', -⟩ | ⟨hi', -⟩⟩ <;> simp [hi] at hi'
    | some c =>
      by_cases hleft : ∃ p ∈ pairs, p.1 = c
      · obtain ⟨p, hp, rfl⟩ := hleft
        exact find_left_eq_correct_iff h hp hi j limit
      by_cases hright : ∃ p ∈ pairs, p.2 = c
      · obtain ⟨p, hp, rfl⟩ := hright
        exact find_right_eq_correct_iff h hp hi j limit
      -- no bracket is at `i`
      have hnone (f : Char × Char → Char) (hf : ¬ ∃ p ∈ pairs, f p = c) :
          pairs.find? (f · = c) = none :=
        List.find?_eq_none.2 fun p hp => by simpa using fun heq => hf ⟨p, hp, heq⟩
      constructor
      · simp [findMatchingBracket, hi, hnone Prod.fst hleft, hnone Prod.snd hright]
      · rintro ⟨p, hp, n, -, ⟨hi', -⟩ | ⟨hi', -⟩⟩
        · exact absurd ⟨p, hp, Option.some.inj (hi'.symm.trans hi)⟩ hleft
        · exact absurd ⟨p, hp, Option.some.inj (hi'.symm.trans hi)⟩ hright
  exact ⟨hiff i j, fun hfound => (hiff j i).2 (((hiff i j).1 hfound).symm h)⟩

omit h

/-- The parentheses around one another's brackets. -/
theorem findMatchingBracket_correct_nested :
    findMatchingBracket [('(', ')'), ('[', ']')] ['(', '[', ']', ')'] 3 (-1) = .correct 0 :=
  (findMatchingBracket_correct (by decide) ['(', '[', ']', ')'] (-1) 0 3).2 (by decide)

/-- A bracket of another pair is between the two parentheses: the depth over the parentheses alone
is zero at the second one, the search does not report it. -/
theorem findMatchingBracket_other_pair :
    DistinctBrackets [('(', ')'), ('[', ']')] ∧
    FirstZero (· == '(') (· == ')') (['(', '[', ')', ']'].drop 1) 2 ∧
    findMatchingBracket [('(', ')'), ('[', ']')] ['(', '[', ')', ']'] 0 (-1) = .incorrect 3 := by
  refine ⟨by decide, ⟨by decide, fun m hm => ?_⟩, by decide⟩
  obtain rfl | rfl : m = 0 ∨ m = 1 := by omega
  all_goals decide

end Match

end Medit
