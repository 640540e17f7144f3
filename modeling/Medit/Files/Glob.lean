import Medit.Library.Pcre

/-!
# Globs

Translation of the glob matching of `mooutils/mooutils-fs.cpp`: a glob is made into a regular
expression, which GRegex compiles and searches for in a name. Texts are UTF-8. GRegex is a
parameter, of which the code relies on what PCRE does.

## Main definitions

* `globToRe`, `mooGlobMatchSimple` — the functions.
* `GlobItem`, `write` — globs, and their texts.

## Main results

* `globToRe_write`, `compile_globRe` — the regular expression of a glob, and what it means.
* `mooGlobMatchSimple_iff` — when a name matches as the glob says.
-/

namespace Medit.Glob

open Pcre

/-! ## The functions -/

/-- `glob_to_re`, character by character, where the code copies pieces of the pattern. -/
def globToRe : List Char → Option (List Char)
  | [] => some ['$']
  | '*' :: p => (globToRe p).map (['.', '*'] ++ ·)
  | '?' :: p => (globToRe p).map ('.' :: ·)
  | '[' :: p =>
    match _h : p.dropWhile (· ≠ ']') with
    | [] => none
    | _ :: rest =>
      let set := p.takeWhile (· ≠ ']')
      let escaped :=
        if set.head? = some '^' then '^' :: escape set.tail else escape set
      (globToRe rest).map ('[' :: (escaped ++ [']']) ++ ·)
  | c :: p =>
    let special := ['\\', '|', '(', ')', ']', '{', '}', '^', '$', '+', '.'].contains c
    (globToRe p).map ((if special then ['\\', c] else [c]) ++ ·)
termination_by p => p.length
decreasing_by
  · exact Nat.lt_succ_self _
  · exact Nat.lt_succ_self _
  · have hle := (List.dropWhile_sublist (· ≠ ']') (l := p)).length_le
    rw [_h, List.length_cons] at hle
    exact Nat.lt_succ_of_lt hle
  · exact Nat.lt_succ_self _

/-- A library for regular expressions: `g_regex_new` and `g_regex_match`. -/
structure GRegexLib (R : Type*) where
  new : List Char → Option R
  isMatch : R → List Char → Bool

/-- What the code relies on: an expression means what it does in PCRE. For which expressions a match
may begin inside of a newline is left open. -/
structure FollowsPcre {R : Type*} (lib : GRegexLib R) (inside : List Char → Bool) : Prop where
  expr : ∀ text items, compile text = .expr items → ∃ re, lib.new text = some re ∧
    ∀ s, lib.isMatch re s = find (inside text) items s
  error : ∀ text, compile text = .error → lib.new text = none

/-- `_moo_glob_match_simple`, with `_moo_glob_new` and `_moo_glob_match` -/
def mooGlobMatchSimple {R : Type*} (lib : GRegexLib R) (pattern filename : List Char) : Bool :=
  match (globToRe pattern).bind lib.new with
  | none => false
  | some re => lib.isMatch re filename

/-! ## Globs -/

/-- What a glob is made of. A set is the text between the brackets. -/
inductive GlobItem
  | char (c : Char)
  | star
  | any
  | set (negated : Bool) (chars : List Char)

namespace GlobItem

/-- The item in a pattern. -/
def text : GlobItem → List Char
  | char c => [c]
  | star => ['*']
  | any => ['?']
  | set negated chars => '[' :: ((if negated then ['^'] else []) ++ (chars ++ [']']))

/-- An item that has a text. -/
def Valid : GlobItem → Prop
  | char c => c ≠ '*' ∧ c ≠ '?' ∧ c ≠ '['
  | star | any => True
  | set negated chars => chars ≠ [] ∧ ']' ∉ chars ∧ (negated = false → chars.head? ≠ some '^')

/-- What an item matches, with wildcards for these characters. -/
def item (wild : Char → Bool) : GlobItem → Item Char
  | char c => .one (· == c)
  | star => .many wild
  | any => .one wild
  | set negated chars => .one fun c => negated != inRanges (plainRanges chars) c

/-- The regular expression of an item. -/
def re : GlobItem → List Char
  | char c => escapeOne c
  | star => ['.', '*']
  | any => ['.']
  | set negated chars => setText negated chars

/-- An item with a regular expression that can be compiled. -/
def Taken : GlobItem → Prop
  | char _ | star | any => True
  | set negated chars => IsSet negated chars

end GlobItem

/-- The pattern of a glob. -/
def write (glob : List GlobItem) : List Char := glob.flatMap GlobItem.text

/-- The regular expression of a glob. -/
def globRe (glob : List GlobItem) : List Char := glob.flatMap GlobItem.re ++ ['$']

variable {glob : List GlobItem} {c : Char} {p : List Char}

theorem globToRe_char (h : c ≠ '*' ∧ c ≠ '?' ∧ c ≠ '[') :
    globToRe (c :: p) = (globToRe p).map (escapeOne c ++ ·) := by
  have hmeta : isMeta c = ['\\', '|', '(', ')', ']', '{', '}', '^', '$', '+', '.'].contains c := by
    simp [isMeta, metas, h]
  rw [globToRe.eq_def]
  simp only [escapeOne, hmeta]
  split <;> simp_all

theorem globToRe_set {negated : Bool} {chars : List Char} (hchars : ']' ∉ chars)
    (hhead : negated = false → chars.head? ≠ some '^') :
    globToRe ('[' :: ((if negated then ['^'] else []) ++ (chars ++ ']' :: p))) =
      (globToRe p).map (setText negated chars ++ ·) := by
  obtain ⟨sign, hsign⟩ : ∃ sign : List Char, sign = if negated then ['^'] else [] := ⟨_, rfl⟩
  have hfree : ∀ c ∈ sign ++ chars, decide (c ≠ ']') = true := by
    intro c hc
    rcases List.mem_append.1 hc with hc | hc
    · cases negated with
      | true =>
        obtain rfl : c = '^' := by simpa [hsign] using hc
        decide
      | false => simp [hsign] at hc
    · simpa using fun heq : c = ']' => hchars (heq ▸ hc)
  have hdrop : (sign ++ (chars ++ ']' :: p)).dropWhile (· ≠ ']') = ']' :: p := by
    rw [← List.append_assoc, List.dropWhile_append_of_pos hfree]
    simp
  have htake : (sign ++ (chars ++ ']' :: p)).takeWhile (· ≠ ']') = sign ++ chars := by
    rw [← List.append_assoc, List.takeWhile_append_of_pos hfree]
    simp
  have hescaped : (if (sign ++ chars).head? = some '^' then '^' :: escape (sign ++ chars).tail
      else escape (sign ++ chars)) = sign ++ escape chars := by
    cases negated with
    | true => simp [hsign]
    | false => simp [hsign, hhead rfl]
  rw [← hsign, globToRe, setText, ← hsign]
  split
  · next h => cases hdrop.symm.trans h
  · next c rest h =>
    obtain ⟨-, rfl⟩ := List.cons.inj (hdrop.symm.trans h)
    simp only [htake, hescaped, List.append_assoc]

/-- The regular expression of a glob is that of its items. -/
theorem globToRe_write (hglob : ∀ i ∈ glob, i.Valid) :
    globToRe (write glob) = some (globRe glob) := by
  induction glob with
  | nil => rw [write, List.flatMap_nil, globToRe]; rfl
  | cons i glob ih =>
    obtain ⟨hi, hglob'⟩ := List.forall_mem_cons.1 hglob
    have hre : globRe (i :: glob) = i.re ++ globRe glob := by simp [globRe]
    rw [write, List.flatMap_cons, ← write, hre]
    cases i with
    | char c => 
      rw [GlobItem.text, List.singleton_append, globToRe_char hi, ih hglob']
      rfl
    | star =>
      rw [GlobItem.text, List.singleton_append, globToRe, ih hglob']
      rfl
    | any =>
      rw [GlobItem.text, List.singleton_append, globToRe, ih hglob']
      rfl
    | set negated chars =>
      have htext : (GlobItem.set negated chars).text ++ write glob =
          '[' :: ((if negated then ['^'] else []) ++ (chars ++ ']' :: write glob)) := by
        simp [GlobItem.text]
      rw [htext, globToRe_set hi.2.1 hi.2.2, ih hglob']
      rfl

/-- What is behind a dot does not make it a wildcard for more than one character. -/
theorem head_globRe (hglob : ∀ i ∈ glob, i.Valid) : (globRe glob).head? ≠ some '*' := by
  cases glob with
  | nil => simp [globRe]
  | cons i glob =>
    have hi := hglob i List.mem_cons_self
    cases i with
    | char c =>
      have hc : escapeOne c = ['\\', c] ∨ escapeOne c = [c] := by
        unfold escapeOne
        split_ifs <;> simp
      rcases hc with hc | hc <;> simp [globRe, GlobItem.re, hc, hi.1]
    | star => simp [globRe, GlobItem.re]
    | any => simp [globRe, GlobItem.re]
    | set negated chars => simp [globRe, GlobItem.re, setText]

/-- The regular expression of an item means the item. -/
theorem compile_re {i : GlobItem} {text : List Char} (hi : i.Valid)
    (htext : text.head? ≠ some '*') :
    (i.Taken → compile (i.re ++ text) = (compile text).cons (i.item inLine)) ∧
      (¬ i.Taken → compile (i.re ++ text) = .error) := by
  cases i with
  | char c =>
    refine ⟨fun _ => ?_, fun h => absurd trivial h⟩
    rw [GlobItem.re, escapeOne, GlobItem.item]
    cases hc : isMeta c with
    | true => exact compile_backslash (not_alphanum_of_isMeta hc)
    | false => exact compile_char (isSpecial_of_not_isMeta hc)
  | star => exact ⟨fun _ => compile_many text, fun h => absurd trivial h⟩
  | any => exact ⟨fun _ => compile_one htext, fun h => absurd trivial h⟩
  | set negated chars => exact compile_setText negated hi.1 hi.2.1

/-- The regular expression of a glob means the glob, if the sets can be compiled. -/
theorem compile_globRe (hglob : ∀ i ∈ glob, i.Valid) :
    ((∀ i ∈ glob, i.Taken) → compile (globRe glob) = .expr (glob.map (GlobItem.item inLine))) ∧
      (¬ (∀ i ∈ glob, i.Taken) → compile (globRe glob) = .error) := by
  induction glob with
  | nil => exact ⟨fun _ => by rw [globRe, List.flatMap_nil, List.nil_append, compile]; rfl,
      fun h => absurd (List.forall_mem_nil _) h⟩
  | cons i glob ih =>
    obtain ⟨hi, hglob'⟩ := List.forall_mem_cons.1 hglob
    have hre : globRe (i :: glob) = i.re ++ globRe glob := by simp [globRe]
    obtain ⟨htaken, herror⟩ := compile_re hi (head_globRe hglob')
    obtain ⟨ihtaken, iherror⟩ := ih hglob'
    rw [hre, List.forall_mem_cons]
    constructor
    · rintro ⟨hitaken, hrest⟩
      rw [htaken hitaken, ihtaken hrest]
      rfl
    · intro h
      by_cases hitaken : i.Taken
      · rw [htaken hitaken, iherror fun hrest => h ⟨hitaken, hrest⟩]
        rfl
      · exact herror hitaken

/-! ## Matching -/

/-- A part of the name matches that reaches up to the end, or up to a last newline, and no newline
is under a wildcard. -/
def MatchesPart (inside : List Char → Bool) (glob : List GlobItem) (name : List Char) : Prop :=
  ∃ t r, t ++ r ∈ starts (inside (globRe glob)) name ∧ isLineEnd r = true ∧
    Matches (glob.map (GlobItem.item inLine)) t

variable {R : Type*} {lib : GRegexLib R} {inside : List Char → Bool} {name : List Char}

theorem mooGlobMatchSimple_eq (hpcre : FollowsPcre lib inside) (hglob : ∀ i ∈ glob, i.Valid)
    (name : List Char) : mooGlobMatchSimple lib (write glob) name = true ↔
      (∀ i ∈ glob, i.Taken) ∧ MatchesPart inside glob name := by
  obtain ⟨htaken, herror⟩ := compile_globRe hglob
  rw [mooGlobMatchSimple, globToRe_write hglob, Option.bind_some]
  by_cases h : ∀ i ∈ glob, i.Taken
  · obtain ⟨re, hnew, hmatch⟩ := hpcre.expr _ _ (htaken h)
    simp only [hnew, hmatch, find_iff, MatchesPart]
    exact ⟨fun hpart => ⟨h, hpart⟩, fun hpart => hpart.2⟩
  · rw [hpcre.error _ (herror h)]
    simp [h]

/-- PCRE, of the expressions that are written for globs. -/
def lineLib : GRegexLib (List (Item Char)) where
  new text := match compile text with
    | .expr items => some items
    | .error | .other => none
  isMatch items s := find false items s

theorem followsPcre_lineLib : FollowsPcre lineLib fun _ => false := by
  refine ⟨fun text items h => ⟨items, ?_, fun s => rfl⟩, fun text h => ?_⟩
  · simp [lineLib, h]
  · simp [lineLib, h]

end Medit.Glob
