import Mathlib.Data.List.Infix

/-!
# Regular expressions for lines

The part of the syntax of PCRE that has characters, sets and `.*` only and ends with `$`, in its
default mode, where every kind of newline is one.

## Main definitions

* `Item`, `Matches` — what is matched one after the other, and the texts that match.
* `compile` — the items of an expression.
* `find` — the search for a place where an expression matches.

## Main results

* `mem_rests_iff`, `find_iff` — what the search looks for.
* `compile_char`, `compile_setText` — the expressions that are written for characters and sets.
-/

namespace Pcre

/-! ## Items -/

variable {α : Type*}

/-- One character, or any number of them. -/
inductive Item (α : Type*)
  | one (p : α → Bool)
  | many (p : α → Bool)

/-- What may follow when characters have been taken. -/
def restsWhile (p : α → Bool) : List α → List (List α)
  | [] => [[]]
  | c :: s => (c :: s) :: if p c then restsWhile p s else []

/-- What may follow an item. -/
def Item.rests : Item α → List α → List (List α)
  | one p, c :: s => if p c then [s] else []
  | one _, [] => []
  | many p, s => restsWhile p s

/-- What may follow the items at the start of a text. -/
def rests : List (Item α) → List α → List (List α)
  | [], s => [s]
  | item :: items, s => (item.rests s).flatMap (rests items)

/-- The items match the whole text. -/
def Matches (items : List (Item α)) (s : List α) : Prop := [] ∈ rests items s

instance [DecidableEq α] (items : List (Item α)) (s : List α) : Decidable (Matches items s) :=
  inferInstanceAs (Decidable ([] ∈ rests items s))

theorem mem_restsWhile {p : α → Bool} {s r : List α} :
    r ∈ restsWhile p s ↔ ∃ t, s = t ++ r ∧ ∀ c ∈ t, p c = true := by
  induction s with
  | nil =>
    rw [restsWhile, List.mem_singleton]
    constructor
    · rintro rfl
      exact ⟨[], rfl, nofun⟩
    · rintro ⟨t, ht, -⟩
      exact (List.append_eq_nil_iff.1 ht.symm).2
  | cons c s ih =>
    rw [restsWhile, List.mem_cons]
    constructor
    · rintro (rfl | hr)
      · exact ⟨[], rfl, nofun⟩
      · split_ifs at hr with hc
        · obtain ⟨t, rfl, ht⟩ := ih.1 hr
          exact ⟨c :: t, rfl, List.forall_mem_cons.2 ⟨hc, ht⟩⟩
        · cases hr
    · rintro ⟨t, ht, hall⟩
      cases t with
      | nil => exact .inl ht.symm
      | cons d t =>
        obtain ⟨rfl, rfl⟩ := List.cons.inj ht
        obtain ⟨hc, hall⟩ := List.forall_mem_cons.1 hall
        rw [if_pos hc]
        exact .inr (ih.2 ⟨t, rfl, hall⟩)

/-- What an item takes. -/
def Item.Takes : Item α → List α → Prop
  | one p, t => ∃ c, t = [c] ∧ p c = true
  | many p, t => ∀ c ∈ t, p c = true

theorem Item.mem_rests {item : Item α} {s r : List α} :
    r ∈ item.rests s ↔ ∃ t, s = t ++ r ∧ item.Takes t := by
  cases item with
  | many p => exact mem_restsWhile
  | one p =>
    cases s with
    | nil =>
      refine ⟨nofun, ?_⟩
      rintro ⟨t, ht, c, rfl, -⟩
      cases ht
    | cons c s =>
      rw [Item.rests]
      constructor
      · intro hr
        split_ifs at hr with hc
        · obtain rfl := List.mem_singleton.1 hr
          exact ⟨[c], rfl, c, rfl, hc⟩
        · cases hr
      · rintro ⟨t, ht, d, rfl, hd⟩
        obtain ⟨rfl, rfl⟩ := List.cons.inj ht
        rw [if_pos hd]
        exact List.mem_singleton_self s

theorem mem_rests_iff {items : List (Item α)} {s r : List α} :
    r ∈ rests items s ↔ ∃ t, s = t ++ r ∧ Matches items t := by
  induction items generalizing s r with
  | nil =>
    rw [rests, List.mem_singleton]
    constructor
    · rintro rfl
      exact ⟨[], rfl, List.mem_singleton_self _⟩
    · rintro ⟨t, rfl, ht⟩
      obtain rfl : [] = t := List.mem_singleton.1 ht
      rfl
  | cons item items ih =>
    simp only [Matches, rests, List.mem_flatMap, Item.mem_rests] at ih ⊢
    constructor
    · rintro ⟨_, ⟨u, rfl, hu⟩, hr⟩
      obtain ⟨t, rfl, ht⟩ := ih.1 hr
      exact ⟨u ++ t, (List.append_assoc u t r).symm, t, ⟨u, rfl, hu⟩, ht⟩
    · rintro ⟨_, rfl, v, ⟨u, rfl, hu⟩, hv⟩
      exact ⟨v ++ r, ⟨u, List.append_assoc u v r, hu⟩, ih.2 ⟨v, rfl, hv⟩⟩

@[simp] theorem matches_nil {s : List α} : Matches [] s ↔ s = [] := by
  rw [Matches, rests, List.mem_singleton, eq_comm]

/-! ## Expressions -/

/-- `PCRE_NEWLINE_ANY` -/
def isNewline (c : Char) : Bool :=
  ['\n', '\x0b', '\x0c', '\r', '\u0085', '\u2028', '\u2029'].contains c

def inLine (c : Char) : Bool := ! isNewline c

/-- The characters with a meaning of their own outside of a set. -/
def specials : List Char := ['\\', '|', '(', ')', '[', '{', '^', '$', '*', '+', '?', '.']

def isSpecial (c : Char) : Bool := specials.contains c

/-- The characters of a set, with those that a backslash is before, and what is behind the set. -/
def readClass : List Char → Option (List (Char × Bool) × List Char)
  | [] => none
  | ']' :: text => some ([], text)
  | ['\\'] => none
  | '\\' :: c :: text =>
    if c.isAlphanum then none else (readClass text).map fun (set, rest) => ((c, true) :: set, rest)
  | c :: text =>
    if c = '[' then none else (readClass text).map fun (set, rest) => ((c, false) :: set, rest)

attribute [elab_as_elim] readClass.induct_unfolding

/-- The ranges of a set, of which one character is a small one. A hyphen that is not between two
characters stands for itself. -/
def ranges : List (Char × Bool) → List (Char × Char)
  | [] => []
  | (c, _) :: ('-', false) :: (d, _) :: set => (c, d) :: ranges set
  | (c, _) :: set => (c, c) :: ranges set

def inRanges (l : List (Char × Char)) (c : Char) : Bool := l.any fun r => r.1 ≤ c && c ≤ r.2

/-- Whether the name of a POSIX class ends here, in the scan of `check_posix_syntax`. -/
def endsPosix (terminator : Char) : List Char → Bool
  | [] => false
  | ['\\'] => false
  | '\\' :: c :: text =>
    if c = ']' ∨ c = '\\' then endsPosix terminator text else endsPosix terminator (c :: text)
  | c :: text =>
    if c = ']' ∨ c = '[' ∧ text.head? = some terminator then false
    else if c = terminator ∧ text.head? = some ']' then true
    else endsPosix terminator text

/-- `check_posix_syntax` -/
def checkPosixSyntax : List Char → Bool
  | [] => false
  | c :: text => (c == ':' || c == '.' || c == '=') && endsPosix c text

/-- An expression that is compiled, one that is in error, or one of another kind. -/
inductive Compiled
  | expr (items : List (Item Char))
  | error
  | other

def Compiled.cons (item : Item Char) : Compiled → Compiled
  | .expr items => .expr (item :: items)
  | .error => .error
  | .other => .other

theorem length_readClass {text rest : List Char} {set : List (Char × Bool)}
    (h : readClass text = some (set, rest)) : rest.length < text.length := by
  fun_induction readClass text generalizing set with
  | case1 => cases h
  | case2 text =>
    obtain ⟨-, rfl⟩ := Prod.mk.inj (Option.some.inj h)
    exact Nat.lt_succ_self _
  | case3 => cases h
  | case4 => cases h
  | case5 c text hc ih =>
    obtain ⟨⟨set', rest'⟩, hread, heq⟩ := Option.map_eq_some_iff.1 h
    obtain ⟨-, rfl⟩ := Prod.mk.inj heq
    exact Nat.lt_succ_of_lt (Nat.lt_succ_of_lt (ih hread))
  | case6 => cases h
  | case7 c text _ _ _ hc ih =>
    obtain ⟨⟨set', rest'⟩, hread, heq⟩ := Option.map_eq_some_iff.1 h
    obtain ⟨-, rfl⟩ := Prod.mk.inj heq
    exact Nat.lt_succ_of_lt (ih hread)

/-- What is behind the sign of a negated set. -/
def unsigned (text : List Char) : List Char := if text.head? = some '^' then text.tail else text

theorem length_unsigned_le (text : List Char) : (unsigned text).length ≤ text.length := by
  unfold unsigned
  split_ifs <;> simp

/-- The set at the start of a text, and what is behind it. -/
def compileClass (negated : Bool) (text : List Char) : Option (Option (Item Char) × List Char) :=
  match readClass text with
  | none | some ([], _) => none
  | some (set, rest) =>
    if ∀ r ∈ ranges set, r.1 ≤ r.2 then
      some (some (.one fun c => negated != inRanges (ranges set) c), rest)
    else some (none, rest)

theorem length_compileClass {negated : Bool} {text rest : List Char} {item : Option (Item Char)}
    (h : compileClass negated text = some (item, rest)) : rest.length < text.length := by
  unfold compileClass at h
  split at h
  · cases h
  · cases h
  · next hread =>
    have hlength := length_readClass hread
    split_ifs at h <;> obtain ⟨-, rfl⟩ := Prod.mk.inj (Option.some.inj h) <;> exact hlength

def compile : List Char → Compiled
  | ['$'] => .expr []
  | '.' :: '*' :: text => (compile text).cons (.many inLine)
  | '.' :: text => (compile text).cons (.one inLine)
  | '\\' :: c :: text =>
    if c.isAlphanum then .other else (compile text).cons (.one (· == c))
  | '[' :: text =>
    if checkPosixSyntax text then .error
    else
      match _h : compileClass (text.head? == some '^') (unsigned text) with
      | none => .other
      | some (none, _) => .error
      | some (some item, rest) => (compile rest).cons item
  | c :: text => if isSpecial c then .other else (compile text).cons (.one (· == c))
  | [] => .other
termination_by text => text.length
decreasing_by
  · exact Nat.lt_succ_of_lt (Nat.lt_succ_self _)
  · exact Nat.lt_succ_self _
  · exact Nat.lt_succ_of_lt (Nat.lt_succ_self _)
  · exact Nat.lt_succ_of_lt ((length_compileClass _h).trans_le (length_unsigned_le text))
  · exact Nat.lt_succ_self _

/-! ## Texts that are escaped -/

/-- The characters that `g_regex_escape_string` escapes. -/
def metas : List Char := ['\\', '|', '(', ')', '[', ']', '{', '}', '^', '$', '*', '+', '?', '.']

def isMeta (c : Char) : Bool := metas.contains c

def escapeOne (c : Char) : List Char := if isMeta c then ['\\', c] else [c]

/-- `g_regex_escape_string` -/
def escape (s : List Char) : List Char := s.flatMap escapeOne

/-- The ranges of a set of characters that stand for themselves, but for the hyphens. -/
def plainRanges : List Char → List (Char × Char)
  | [] => []
  | c :: '-' :: d :: set => (c, d) :: plainRanges set
  | c :: set => (c, c) :: plainRanges set

theorem isSpecial_of_not_isMeta {c : Char} (h : isMeta c = false) : isSpecial c = false := by
  have hall : specials.all isMeta := by decide
  by_contra hspecial
  have hmem := List.all_eq_true.1 hall c (by simpa [isSpecial] using hspecial)
  simp [hmem] at h

theorem not_alphanum_of_isMeta {c : Char} (h : isMeta c = true) : c.isAlphanum = false := by
  have hall : metas.all fun c => !c.isAlphanum := by decide
  simpa using List.all_eq_true.1 hall c (by simpa [isMeta] using h)

theorem ranges_map (set : List Char) :
    ranges (set.map fun c => (c, isMeta c)) = plainRanges set := by
  have hhyphen : isMeta '-' = false := by decide
  fun_induction plainRanges set with
  | case1 => rfl
  | case2 c d set ih => simp [ranges, hhyphen, ih]
  | case3 c set hset ih =>
    rw [List.map_cons, ranges, ih]
    intro d b set' hset'
    match set, hset' with
    | e :: f :: set, hset' =>
      simp only [List.map_cons, List.cons.injEq, Prod.mk.injEq] at hset'
      obtain ⟨⟨rfl, -⟩, ⟨rfl, -⟩, -⟩ := hset'
      exact hset _ _ rfl

theorem readClass_escape (set rest : List Char) :
    readClass (escape set ++ ']' :: rest) = some (set.map fun c => (c, isMeta c), rest) := by
  induction set with
  | nil => rfl
  | cons c set ih =>
    rw [escape, List.flatMap_cons, ← escape, List.append_assoc, escapeOne]
    cases hc : isMeta c with
    | true => 
      simp [readClass, not_alphanum_of_isMeta hc, ih, hc]
    | false =>
      have hne : c ≠ ']' ∧ c ≠ '\\' ∧ c ≠ '[' := by
        refine ⟨?_, ?_, ?_⟩ <;> rintro rfl <;> simp [isMeta, metas] at hc
      simp [readClass, hne, ih, hc]

theorem head_escape {t : Char} (ht : isMeta t = false) (u rest : List Char) :
    (escape u ++ ']' :: rest).head? = some t ↔ u.head? = some t := by
  have hne : t ≠ ']' ∧ t ≠ '\\' := by
    refine ⟨?_, ?_⟩ <;> rintro rfl <;> simp [isMeta, metas] at ht
  cases u with
  | nil => simp [escape, hne.1.symm]
  | cons c u =>
    rw [escape, List.flatMap_cons, escapeOne]
    cases hc : isMeta c with
    | true =>
      have hct : c ≠ t := by
        rintro rfl
        simp [hc] at ht
      simp [hne.2.symm, hct]
    | false => simp

theorem head_escape_eq (u rest : List Char) :
    (escape u ++ ']' :: rest).head? = some ']' ↔ u = [] := by
  cases u with
  | nil => simp [escape]
  | cons c u =>
    rw [escape, List.flatMap_cons, escapeOne]
    cases hc : isMeta c with
    | true => simp
    | false =>
      have hne : c ≠ ']' := by
        rintro rfl
        simp [isMeta, metas] at hc
      simp [hne]

theorem endsPosix_escapeOne {t c : Char} (ht : isMeta t = false) (hc : c ≠ ']')
    (text : List Char) :
    endsPosix t (escapeOne c ++ text) =
      if c = '[' ∧ text.head? = some t then false
      else if c = t ∧ text.head? = some ']' then true
      else endsPosix t text := by
  rw [escapeOne]
  cases hmeta : isMeta c with
  | true =>
    have hct : c ≠ t := by
      rintro rfl
      simp [hmeta] at ht
    by_cases hback : c = '\\'
    · subst hback
      simp [endsPosix, hct]
    · have hskip : endsPosix t ('\\' :: c :: text) = endsPosix t (c :: text) := by
        rw [endsPosix, if_neg (by simp [hback, hc])]
      have hplain : endsPosix t (c :: text) =
          if c = '[' ∧ text.head? = some t then false else endsPosix t text := by
        rw [endsPosix.eq_def]
        simp [hback, hc, hct]
      simp [hskip, hplain, hct]
  | false =>
    have hne : c ≠ '[' ∧ c ≠ '\\' := by
      refine ⟨?_, ?_⟩ <;> rintro rfl <;> simp [isMeta, metas] at hmeta
    have hplain : endsPosix t (c :: text) =
        if c = t ∧ text.head? = some ']' then true else endsPosix t text := by
      rw [endsPosix.eq_def]
      simp [hne, hc]
    simp [hplain, hne]

theorem infix_pair_cons {a t c : Char} {u : List Char} :
    [a, t] <:+: c :: u ↔ c = a ∧ u.head? = some t ∨ [a, t] <:+: u := by
  rw [List.infix_cons_iff, List.cons_prefix_cons, @eq_comm _ a c]
  cases u with
  | nil => simp
  | cons d u =>
    rw [List.cons_prefix_cons, List.head?_cons, Option.some.injEq, @eq_comm _ t d]
    simp

/-- A set is taken for the name of a POSIX class if it ends as it begins, and no name can begin in
it. -/
theorem endsPosix_escape {t : Char} (ht : isMeta t = false) {u : List Char} (hu : ']' ∉ u)
    (rest : List Char) :
    endsPosix t (escape u ++ ']' :: rest) = true ↔ u.getLast? = some t ∧ ¬ ['[', t] <:+: u := by
  induction u with
  | nil => simp [escape, endsPosix]
  | cons c u ih =>
    obtain ⟨hc, hu⟩ := not_or.1 (List.mem_cons.not.1 hu)
    rw [escape, List.flatMap_cons, ← escape, List.append_assoc,
      endsPosix_escapeOne ht (Ne.symm hc), infix_pair_cons]
    simp only [head_escape ht, head_escape_eq]
    cases u with
    | nil =>
      by_cases hct : c = t <;> simp [hct, escape, endsPosix]
    | cons d u =>
      rw [List.getLast?_cons_cons, if_neg (by simp : ¬ (c = t ∧ d :: u = []))]
      by_cases hopen : c = '[' ∧ (d :: u).head? = some t
      · simp [hopen]
      · rw [if_neg hopen, ih hu]
        simp only [hopen, false_or]

/-! ## Expressions that are written -/

variable {c : Char} {text : List Char}

theorem compile_many (text : List Char) :
    compile ('.' :: '*' :: text) = (compile text).cons (.many inLine) := by
  rw [compile]

theorem compile_one (h : text.head? ≠ some '*') :
    compile ('.' :: text) = (compile text).cons (.one inLine) := by
  rw [compile]
  rintro _ rfl
  exact h rfl

theorem compile_char (h : isSpecial c = false) :
    compile (c :: text) = (compile text).cons (.one (· == c)) := by
  have hne : c ≠ '$' ∧ c ≠ '.' ∧ c ≠ '\\' ∧ c ≠ '[' := by
    refine ⟨?_, ?_, ?_, ?_⟩ <;> rintro rfl <;> simp [isSpecial, specials] at h
  rw [compile.eq_def]
  simp [hne, h]

theorem compile_backslash (h : c.isAlphanum = false) :
    compile ('\\' :: c :: text) = (compile text).cons (.one (· == c)) := by
  rw [compile]
  simp [h]

/-- A set that is taken for the name of a POSIX class, which may only stand in another set. -/
def NamesClass (set : List Char) : Prop :=
  ∃ t u, set = t :: u ∧ (t = ':' ∨ t = '=') ∧ u.getLast? = some t ∧ ¬ ['[', t] <:+: u

theorem checkPosixSyntax_escape {set : List Char} (hset : ']' ∉ set) :
    checkPosixSyntax (escape set ++ ']' :: text) = true ↔ NamesClass set := by
  cases set with
  | nil => simp [escape, checkPosixSyntax, NamesClass]
  | cons t u =>
    have hu : ']' ∉ u := fun hmem => hset (List.mem_cons_of_mem t hmem)
    rw [escape, List.flatMap_cons, ← escape, List.append_assoc, escapeOne]
    cases ht : isMeta t with
    | true =>
      have hne : t ≠ ':' ∧ t ≠ '=' := by
        refine ⟨?_, ?_⟩ <;> rintro rfl <;> simp [isMeta, metas] at ht
      simp [checkPosixSyntax, NamesClass, hne]
    | false =>
      have hdot : t ≠ '.' := by
        rintro rfl
        simp [isMeta, metas] at ht
      simp only [Bool.false_eq_true, if_false, List.cons_append, List.nil_append, checkPosixSyntax,
        Bool.and_eq_true, endsPosix_escape ht hu]
      constructor
      · rintro ⟨hcolon, hlast⟩
        exact ⟨t, u, rfl, by simpa [hdot] using hcolon, hlast⟩
      · rintro ⟨t, u, heq, hcolon, hlast⟩
        obtain ⟨rfl, rfl⟩ := List.cons.inj heq
        exact ⟨by simpa [hdot] using hcolon, hlast⟩

theorem compileClass_escape {set : List Char} (negated : Bool) (hne : set ≠ []) :
    compileClass negated (escape set ++ ']' :: text) =
      some (if ∀ r ∈ plainRanges set, r.1 ≤ r.2 then
        some (.one fun c => negated != inRanges (plainRanges set) c) else none, text) := by
  obtain ⟨c, set, rfl⟩ := List.exists_cons_of_ne_nil hne
  rw [compileClass, readClass_escape]
  simp only [List.map_cons]
  rw [← List.map_cons (f := fun c => (c, isMeta c)), ranges_map]
  split_ifs <;> rfl

/-- A set that can be compiled. -/
def IsSet (negated : Bool) (set : List Char) : Prop :=
  (negated = true ∨ ¬ NamesClass set) ∧ ∀ r ∈ plainRanges set, r.1 ≤ r.2

/-- The text of a set. -/
def setText (negated : Bool) (set : List Char) : List Char :=
  '[' :: ((if negated then ['^'] else []) ++ (escape set ++ [']']))

theorem compile_class_of {item : Item Char} {rest : List Char}
    (hposix : checkPosixSyntax text = false)
    (h : compileClass (text.head? == some '^') (unsigned text) = some (some item, rest)) :
    compile ('[' :: text) = (compile rest).cons item := by
  rw [compile, if_neg (by simp [hposix])]
  split <;> simp_all

theorem compile_class_error (h : checkPosixSyntax text = true ∨ ∃ rest,
    compileClass (text.head? == some '^') (unsigned text) = some (none, rest)) :
    compile ('[' :: text) = .error := by
  rw [compile]
  split_ifs with hposix
  · rfl
  · obtain ⟨rest, hclass⟩ := h.resolve_left hposix
    split <;> simp_all

theorem head_escape_ne_caret (set : List Char) :
    (escape set ++ ']' :: text).head? ≠ some '^' := by
  cases set with
  | nil => simp [escape]
  | cons c set =>
    rw [escape, List.flatMap_cons, escapeOne]
    cases hc : isMeta c with
    | true => simp
    | false =>
      have hne : c ≠ '^' := by
        rintro rfl
        simp [isMeta, metas] at hc
      simp [hne]

/-- A set is compiled, or it is in error. -/
theorem compile_setText (negated : Bool) {set : List Char} (hne : set ≠ []) (hset : ']' ∉ set) :
    (IsSet negated set → compile (setText negated set ++ text) =
        (compile text).cons (.one fun c => negated != inRanges (plainRanges set) c)) ∧
      (¬ IsSet negated set → compile (setText negated set ++ text) = .error) := by
  obtain ⟨behind, hclass⟩ : ∃ behind : List Char, behind =
    (if negated then ['^'] else []) ++ (escape set ++ ']' :: text) := ⟨_, rfl⟩
  have htext : setText negated set ++ text = '[' :: behind := by simp [setText, hclass]
  have hread : compileClass (behind.head? == some '^') (unsigned behind) =
      compileClass negated (escape set ++ ']' :: text) := by
    cases negated with
    | true => simp [hclass, unsigned]
    | false =>
      have hcaret : behind.head? ≠ some '^' := by
        rw [hclass]
        exact head_escape_ne_caret set
      rw [unsigned, if_neg hcaret, beq_eq_false_iff_ne.2 hcaret, hclass]
      rfl
  have hposix : checkPosixSyntax behind = true ↔ negated = false ∧ NamesClass set := by
    cases negated with
    | true => simp [hclass, checkPosixSyntax]
    | false => simp [hclass, checkPosixSyntax_escape hset]
  rw [compileClass_escape negated hne] at hread
  rw [htext]
  constructor
  · rintro ⟨hnames, hranges⟩
    rw [if_pos hranges] at hread
    refine compile_class_of ?_ hread
    by_contra hcheck
    obtain ⟨rfl, hnames'⟩ := hposix.1 (by simpa using hcheck)
    exact hnames.elim nofun (absurd hnames')
  · intro hnot
    refine compile_class_error  ?_
    by_cases hnames : negated = true ∨ ¬ NamesClass set
    · have hranges : ¬ ∀ r ∈ plainRanges set, r.1 ≤ r.2 := fun hranges => hnot ⟨hnames, hranges⟩
      exact .inr ⟨text, by rw [hread, if_neg hranges]⟩
    · push Not at hnames
      exact .inl (hposix.2 ⟨by simpa using hnames.1, hnames.2⟩)

/-! ## Searching -/

/-- Where `$` matches: at the end, or before a last newline. -/
def isLineEnd : List Char → Bool
  | [] => true
  | [c] => isNewline c
  | [c, d] => c == '\r' && d == '\n'
  | _ => false

/-- Where a match may begin, and whether that may be between the two characters of a newline. -/
def starts (inside : Bool) : List Char → List (List Char)
  | [] => [[]]
  | c :: s =>
    (c :: s) :: if ! inside ∧ c = '\r' ∧ s.head? = some '\n' then (starts inside s).tail
      else starts inside s

/-- The search for a match. -/
def find (inside : Bool) (items : List (Item Char)) (s : List Char) : Bool :=
  (starts inside s).any fun t => (rests items t).any isLineEnd

theorem find_iff {inside : Bool} {items : List (Item Char)} {s : List Char} :
    find inside items s = true ↔ ∃ t r, t ++ r ∈ starts inside s ∧ isLineEnd r = true ∧
      Matches items t := by
  simp only [find, List.any_eq_true, mem_rests_iff]
  constructor
  · rintro ⟨_, hstart, r, ⟨t, rfl, ht⟩, hr⟩
    exact ⟨t, r, hstart, hr, ht⟩
  · rintro ⟨t, r, hstart, hr, ht⟩
    exact ⟨_, hstart, r, ⟨t, rfl, ht⟩, hr⟩

end Pcre
