import Mathlib.Data.List.Basic

/-!
# Words to check

Translation of `plugins/spell/spell-words.cpp`. A text is its characters, and a pointer into it is
the number of characters before it.

## Main definitions

* `Unichar` — what GLib says about characters.
* `touchesIdentifier`, `runIsWord` — the tests for a run of letters.
* `nextWord` — `moo_spell_next_word`.
-/

namespace Medit.Spell

/-- The scripts that `run_is_word` tells apart. -/
inductive UnicodeScript
  | latin
  | cyrillic
  | other
deriving DecidableEq

/-- The classes of characters that GLib knows. The letters of ASCII are letters. -/
structure Unichar where
  isSpace : Char → Bool
  isAlpha : Char → Bool
  isDigit : Char → Bool
  isUpper : Char → Bool
  script : Char → UnicodeScript
  isAlpha_ascii : ∀ c : Char, c.isAlpha → isAlpha c

/-- `MooSpellScript` -/
inductive MooSpellScript
  | latin
  | cyrillic
deriving DecidableEq

/-- `MooSpellWord`, with the place behind the word as `stop`. -/
structure MooSpellWord where
  start : ℕ
  stop : ℕ
  script : MooSpellScript
deriving DecidableEq

/-- `g_utf8_get_char`, with the terminator behind the text. -/
def getChar (text : List Char) (p : ℕ) : Char := text.getD p '\x00'

/-- `is_apostrophe` -/
def isApostrophe (c : Char) : Bool := c == '\'' || c == '\u2019'

/-- `chunk_is_skipped` -/
def chunkIsSkipped (text : List Char) (s e : ℕ) : Bool :=
  let chunk := (text.take e).drop s
  (decide (4 ≤ e - s) && (chunk.take 4).map Char.toLower == ['w', 'w', 'w', '.']) ||
    chunk.any fun c => c == '/' || c == '@'

/-- `is_dotted` -/
def isDotted (u : Unichar) (text : List Char) (chunkEnd dot : ℕ) : Bool :=
  getChar text dot == '.' && decide (dot + 1 < chunkEnd) && u.isAlpha (getChar text (dot + 1))

/-- `touches_identifier` -/
def touchesIdentifier (u : Unichar) (text : List Char) (cs ce rs re : ℕ) : Bool :=
  (decide (cs < rs) &&
    let c := getChar text (rs - 1)
    u.isDigit c || c == '_' ||
      (c == '.' && decide (cs < rs - 1) && u.isAlpha (getChar text (rs - 2)))) ||
  (decide (re < ce) &&
    let c := getChar text re
    u.isDigit c || c == '_' || isDotted u text ce re)

/-- The variables of `run_is_word`; `script` is set with the first letter. -/
structure RunState where
  n : ℕ
  upper : ℕ
  upperRun : ℕ
  camel : Bool
  prevLower : Bool
  script : Option MooSpellScript

/-- The script of a letter that a word may have. -/
def UnicodeScript.spelled : UnicodeScript → Option MooSpellScript
  | .latin => some .latin
  | .cyrillic => some .cyrillic
  | .other => none

/-- A round of the loop of `run_is_word`; there is no state where it returns. -/
def runStep (u : Unichar) (v : RunState) (c : Char) : Option RunState :=
  if isApostrophe c then some v
  else
    match (u.script c).spelled with
    | none => none
    | some s =>
      if v.script.any (· ≠ s) then none
      else
        let v := { v with script := some s, n := v.n + 1 }
        if u.isUpper c then
          some { v with
            upper := v.upper + 1
            camel := v.camel || v.prevLower
            prevLower := false
            upperRun := v.upperRun + 1 }
        else
          some { v with
            camel := v.camel || decide (2 < v.upperRun)
            upperRun := 0
            prevLower := true }

/-- `run_is_word`: the script of a run of letters that is a word. -/
def runIsWord (u : Unichar) (run : List Char) : Option MooSpellScript :=
  match run.foldlM (runStep u) ⟨0, 0, 0, false, false, none⟩ with
  | none => none
  | some v => if 2 ≤ v.n ∧ v.upper < v.n ∧ v.camel = false then v.script else none

/-- The end of the chunk that goes on at `ce`. -/
def chunkEnd (u : Unichar) (text : List Char) (ce : ℕ) : ℕ :=
  if ce < text.length ∧ ¬ u.isSpace (getChar text ce) then chunkEnd u text (ce + 1) else ce
termination_by text.length - ce

/-- Whether a run goes on with the character at `re`. -/
def runGoesOn (u : Unichar) (text : List Char) (ce re : ℕ) : Bool :=
  let c := getChar text re
  u.isAlpha c || (isApostrophe c && decide (re + 1 < ce) && u.isAlpha (getChar text (re + 1)))

/-- The end of the run that goes on at `re`. -/
def runEnd (u : Unichar) (text : List Char) (ce re : ℕ) : ℕ :=
  if re < ce ∧ runGoesOn u text ce re then runEnd u text ce (re + 1) else re
termination_by ce - re

theorem le_chunkEnd (u : Unichar) (text : List Char) (ce : ℕ) : ce ≤ chunkEnd u text ce := by
  fun_induction chunkEnd u text ce <;> omega

theorem le_runEnd (u : Unichar) (text : List Char) (ce re : ℕ) : re ≤ runEnd u text ce re := by
  fun_induction runEnd u text ce re <;> omega

/-- A chunk that starts at a character has the character. -/
theorem lt_chunkEnd {u : Unichar} {text : List Char} {p : ℕ} (hp : p < text.length)
    (hspace : ¬ u.isSpace (getChar text p)) : p < chunkEnd u text p := by
  rw [chunkEnd, if_pos ⟨hp, hspace⟩]
  exact le_chunkEnd u text (p + 1)

/-- A run that starts at a letter has the letter. -/
theorem lt_runEnd {u : Unichar} {text : List Char} {ce p : ℕ} (hp : p < ce)
    (halpha : u.isAlpha (getChar text p)) : p < runEnd u text ce p := by
  rw [runEnd, if_pos ⟨hp, by simp [runGoesOn, halpha]⟩]
  exact le_runEnd u text ce (p + 1)

/-- The word that a run of letters is, if it is one. -/
def wordAt (u : Unichar) (text : List Char) (cs ce rs re : ℕ) : Option MooSpellWord :=
  if touchesIdentifier u text cs ce rs re then none
  else (runIsWord u ((text.take re).drop rs)).map fun script => ⟨rs, re, script⟩

/-- The loop of `moo_spell_next_word` over the chunk from `cs` to `ce`, at the place `p`. -/
def nextInChunk (u : Unichar) (text : List Char) (cs ce p : ℕ) : Option MooSpellWord :=
  if hp : p < ce then
    if halpha : u.isAlpha (getChar text p) then
      let re := runEnd u text ce p
      match wordAt u text cs ce p re with
      | some word => some word
      | none => nextInChunk u text cs ce re
    else nextInChunk u text cs ce (p + 1)
  else none
termination_by ce - p
decreasing_by
  · have := lt_runEnd hp halpha
    omega
  · omega

/-- `moo_spell_next_word`: the next word, and the new position. -/
def nextWord (u : Unichar) (text : List Char) (p : ℕ) : Option MooSpellWord × ℕ :=
  if _ : p < text.length then
    if hspace : u.isSpace (getChar text p) then nextWord u text (p + 1)
    else
      let ce := chunkEnd u text p
      if chunkIsSkipped text p ce then nextWord u text ce
      else
        match nextInChunk u text p ce p with
        | some word => (some word, word.stop)
        | none => nextWord u text ce
  else (none, text.length)
termination_by text.length - p
decreasing_by
  · omega
  · have := lt_chunkEnd ‹_› hspace
    omega
  · have := lt_chunkEnd ‹_› hspace
    omega

end Medit.Spell
