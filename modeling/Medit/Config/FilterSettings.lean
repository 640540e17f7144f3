import Mathlib
import Medit.Library.Words

/-!
# Settings for files

Translation of the settings store of `mooeditfiltersettings.cpp`: settings for the documents that
match a filter, as they are in the preferences and as strings in the dialog. Texts are UTF-8. Which
regular expressions can be compiled is a parameter.

## Main definitions

* `MooEditFilter`, `mooEditFilterNewFull`, `MooEditFilter.getString` — filters, read and written.
* `setStrings`, `getStrings` — the settings of the dialog, put into the store and taken from it.
* `Ambiguous` — a text is written as a filter of another kind, or cannot be read.

## Main results

* `setStrings_getStrings_iff` — when the store comes back from its strings.
-/

namespace Medit.FilterSettings

open Words

/-! ## Filters -/

/-- A `MooEditFilter` with its type. A compiled regular expression is its pattern. -/
inductive MooEditFilter
  | langs (langs : List (List Char))
  | globs (globs : List (List Char))
  | regex (pattern : List Char)
  | invalid (string : List Char)
deriving DecidableEq

/-- `MooEditFilterKind` -/
inductive MooEditFilterKind
  | config
  | action

/-- The separators in `g_strsplit_set`. -/
def isSeparator (c : Char) : Bool := [' ', '\t', '\r', '\n', ';', ','].contains c

/-- `g_ascii_isspace` -/
def isSpace (c : Char) : Bool := [' ', '\t', '\n', '\x0c', '\r'].contains c

/-- `_moo_lang_id_from_name` -/
def mooLangIdFromName (whatever : List Char) : List Char :=
  if whatever.map Char.toLower = "none".toList then "none".toList
  else strip isSpace (whatever.map Char.toLower)

/-- `parse_globs` -/
def parseGlobs (string : List Char) : List (List Char) := words isSeparator isSpace string

/-- `_moo_edit_parse_langs` -/
def mooEditParseLangs (string : List Char) : List (List Char) :=
  (words isSeparator isSpace string).map mooLangIdFromName

/-- The prefixes of filters with a type. -/
def langsPrefix : List Char := "langs:".toList
def globsPrefix : List Char := "globs:".toList
def regexPrefix : List Char := "regex:".toList

section Compiles

variable (compiles : List Char → Bool)

/-- `moo_edit_filter_new_regex` -/
def mooEditFilterNewRegex (string : List Char) : MooEditFilter :=
  if compiles string then .regex string else .invalid string

/-- `_moo_edit_filter_new_full` -/
def mooEditFilterNewFull (string : List Char) (kind : MooEditFilterKind) : Option MooEditFilter :=
  if string = [] then none
  else if langsPrefix.isPrefixOf string then
    some (.langs (mooEditParseLangs (string.drop langsPrefix.length)))
  else if globsPrefix.isPrefixOf string then
    some (.globs (parseGlobs (string.drop globsPrefix.length)))
  else if regexPrefix.isPrefixOf string then
    some (mooEditFilterNewRegex compiles (string.drop regexPrefix.length))
  else
    match kind with
    | .config => some (mooEditFilterNewRegex compiles string)
    | .action => some (.globs (parseGlobs string))

/-- `moo_edit_filter_get_string` where the default type is that of a regular expression. -/
def MooEditFilter.getString : MooEditFilter → List Char
  | .langs ids => langsPrefix ++ [';'].intercalate ids
  | .globs patterns => globsPrefix ++ [';'].intercalate patterns
  | .regex pattern => pattern
  | .invalid string => string

/-! ## The store -/

/-- A `FilterSetting`. -/
structure FilterSetting where
  filter : MooEditFilter
  config : List Char
deriving DecidableEq

/-- `filter_setting_new` -/
def filterSettingNew (filter config : List Char) : Option FilterSetting :=
  (mooEditFilterNewFull compiles filter .config).map fun filter => ⟨filter, config⟩

/-- `_moo_edit_filter_settings_set_strings`, with the filters and the configs in pairs: they become
the settings in the preferences, and these are loaded. -/
def setStrings (list : List (List Char × List Char)) : List FilterSetting :=
  list.filterMap fun setting => filterSettingNew compiles setting.1 setting.2

end Compiles

/-- `_moo_edit_filter_settings_get_strings` -/
def getStrings (store : List FilterSetting) : List (List Char × List Char) :=
  store.map fun setting => (setting.filter.getString, setting.config)

/-- A pattern that cannot be read again: there is nothing to read, or it begins like a filter with a
type. -/
def Ambiguous (pattern : List Char) : Prop :=
  pattern = [] ∨ langsPrefix <+: pattern ∨ globsPrefix <+: pattern ∨ regexPrefix <+: pattern

/-! ## Languages and globs -/

/-- The language ids and globs that are read. -/
abbrev IsItem : List Char → Prop := IsWord isSeparator isSpace

/-- A letter may become a small one, and another character stays. -/
theorem toLower_cases (c : Char) : c.toLower = c ∨ c.isAlpha ∧ c.toLower.isLower := by
  by_cases h : c.val ≥ 'A'.val ∧ c.val ≤ 'Z'.val
  · right
    have hlow : c.toLower.val = c.val + ('a'.val - 'A'.val) := by rw [Char.toLower, dif_pos h]
    simp only [Char.isAlpha, Char.isUpper, Char.isLower, hlow, Bool.or_eq_true, Bool.and_eq_true,
      decide_eq_true_eq]
    refine ⟨.inl h, ?_⟩
    simp only [ge_iff_le, UInt32.le_iff_toNat_le, UInt32.toNat_add] at h ⊢
    have hcode : 65 ≤ c.val.toNat ∧ c.val.toNat ≤ 90 := h
    have hsum : 97 ≤ (c.val.toNat + 32) % 2 ^ 32 ∧ (c.val.toNat + 32) % 2 ^ 32 ≤ 122 := by omega
    exact hsum
  · exact .inl (by rw [Char.toLower, dif_neg h])

theorem toLower_of_isLower {c : Char} (hc : c.isLower) : c.toLower = c := by
  simp only [Char.isLower, Bool.and_eq_true, decide_eq_true_eq, ge_iff_le,
    UInt32.le_iff_toNat_le] at hc
  have hcode : 97 ≤ c.val.toNat ∧ c.val.toNat ≤ 122 := hc
  rw [Char.toLower, dif_neg]
  rintro ⟨-, hle⟩
  have hupper : c.val.toNat ≤ 90 := hle
  omega

theorem toLower_toLower (c : Char) : c.toLower.toLower = c.toLower := by
  obtain h | ⟨-, hlower⟩ := toLower_cases c
  · rw [h, h]
  · exact toLower_of_isLower hlower

theorem toLower_of_not_alpha {p : Char → Bool} (hp : ∀ c, p c → c.isAlpha = false) (c : Char) :
    p c.toLower = p c := by
  obtain h | ⟨halpha, hlower⟩ := toLower_cases c
  · rw [h]
  · have hnot (d : Char) (hd : d.isAlpha) : p d = false := by
      by_contra h
      simp [hp d (by simpa using h)] at hd
    rw [hnot c halpha, hnot _ (by simp [Char.isAlpha, hlower])]

theorem isSeparator_toLower (c : Char) : isSeparator c.toLower = isSeparator c := by
  refine toLower_of_not_alpha (fun c hc => ?_) c
  simp only [isSeparator, List.contains_iff_mem, List.mem_cons, List.not_mem_nil, or_false] at hc
  rcases hc with rfl | rfl | rfl | rfl | rfl | rfl <;> decide

theorem isSpace_toLower (c : Char) : isSpace c.toLower = isSpace c := by
  refine toLower_of_not_alpha (fun c hc => ?_) c
  simp only [isSpace, List.contains_iff_mem, List.mem_cons, List.not_mem_nil, or_false] at hc
  rcases hc with rfl | rfl | rfl | rfl | rfl <;> decide

theorem strip_map_toLower (s : List Char) :
    strip isSpace (s.map Char.toLower) = (strip isSpace s).map Char.toLower := by
  have hcomp : isSpace ∘ Char.toLower = isSpace := funext isSpace_toLower
  simp only [strip, List.rdropWhile, List.dropWhile_map, hcomp, ← List.map_reverse]

theorem mooLangIdFromName_item {w : List Char} (h : IsItem w) :
    mooLangIdFromName w = w.map Char.toLower := by
  unfold mooLangIdFromName
  split_ifs with hnone
  · exact hnone.symm
  · rw [strip_map_toLower, h.strip]

theorem isItem_toLower {w : List Char} (h : IsItem w) : IsItem (w.map Char.toLower) where
  ne_nil := by simpa using h.ne_nil
  not_sep c hc := by
    obtain ⟨c', hc', rfl⟩ := List.mem_map.1 hc
    rw [isSeparator_toLower]
    exact h.not_sep c' hc'
  strip := by rw [strip_map_toLower, h.strip]

/-- The globs of a filter are the ones that are read from them. -/
theorem parseGlobs_parseGlobs (string : List Char) :
    parseGlobs ([';'].intercalate (parseGlobs string)) = parseGlobs string :=
  words_intercalate rfl fun _ => isWord_of_mem_words

/-- The languages of a filter are the ones that are read from them. -/
theorem parseLangs_parseLangs (string : List Char) :
    mooEditParseLangs ([';'].intercalate (mooEditParseLangs string)) =
      mooEditParseLangs string := by
  have hitem : ∀ w ∈ words isSeparator isSpace string, IsItem w := fun _ => isWord_of_mem_words
  have hlang : mooEditParseLangs string =
      (words isSeparator isSpace string).map (·.map Char.toLower) :=
    List.map_congr_left fun w hw => mooLangIdFromName_item (hitem w hw)
  have hlower : ∀ w ∈ mooEditParseLangs string, IsItem w ∧ w.map Char.toLower = w := by
    intro w hw
    rw [hlang] at hw
    obtain ⟨w', hw', rfl⟩ := List.mem_map.1 hw
    exact ⟨isItem_toLower (hitem w' hw'), by simp [toLower_toLower]⟩
  have hwords : words isSeparator isSpace ([';'].intercalate (mooEditParseLangs string)) =
      mooEditParseLangs string := words_intercalate rfl fun w hw => (hlower w hw).1
  conv_lhs => rw [mooEditParseLangs, hwords]
  conv_rhs => rw [← List.map_id (mooEditParseLangs string)]
  refine List.map_congr_left fun w hw => ?_
  rw [mooLangIdFromName_item (hlower w hw).1, (hlower w hw).2, id]

/-! ## One filter -/

section Filter

variable {compiles : List Char → Bool} {string config : List Char} {kind : MooEditFilterKind}

theorem isPrefixOf_append (l l' : List Char) : l.isPrefixOf (l ++ l') = true :=
  List.isPrefixOf_iff_prefix.2 (List.prefix_append l l')

theorem newFull_langs (s : List Char) :
    mooEditFilterNewFull compiles (langsPrefix ++ s) kind =
      some (.langs (mooEditParseLangs s)) := by
  unfold mooEditFilterNewFull
  rw [if_neg (by simp [langsPrefix]), if_pos (isPrefixOf_append _ _),
    List.drop_left]

theorem newFull_globs (s : List Char) :
    mooEditFilterNewFull compiles (globsPrefix ++ s) kind = some (.globs (parseGlobs s)) := by
  unfold mooEditFilterNewFull
  rw [if_neg (by simp [globsPrefix]),
    if_neg (by simp [langsPrefix, globsPrefix]), if_pos (isPrefixOf_append _ _), List.drop_left]

theorem newFull_regex (s : List Char) :
    mooEditFilterNewFull compiles (regexPrefix ++ s) kind =
      some (mooEditFilterNewRegex compiles s) := by
  unfold mooEditFilterNewFull
  rw [if_neg (by simp [regexPrefix]),
    if_neg (by simp [langsPrefix, regexPrefix]), if_neg (by simp [globsPrefix, regexPrefix]),
    if_pos (isPrefixOf_append _ _), List.drop_left]

theorem newFull_of_not_ambiguous (h : ¬ Ambiguous string) :
    mooEditFilterNewFull compiles string .config =
      some (mooEditFilterNewRegex compiles string) := by
  simp only [Ambiguous, not_or] at h
  obtain ⟨hne, hlangs, hglobs, hregex⟩ := h
  rw [← List.isPrefixOf_iff_prefix] at hlangs hglobs hregex
  rw [mooEditFilterNewFull, if_neg hne, if_neg hlangs, if_neg hglobs, if_neg hregex]

/-- The pattern of a regular expression is not read as it again exactly if it is ambiguous. -/
theorem newFull_pattern_iff :
    mooEditFilterNewFull compiles string .config = some (mooEditFilterNewRegex compiles string) ↔
      ¬ Ambiguous string := by
  refine ⟨?_, newFull_of_not_ambiguous⟩
  rintro h (rfl | ⟨s, rfl⟩ | ⟨s, rfl⟩ | ⟨s, rfl⟩)
  · simp [mooEditFilterNewFull] at h
  · rw [newFull_langs, mooEditFilterNewRegex] at h
    split_ifs at h <;> simp at h
  · rw [newFull_globs, mooEditFilterNewRegex] at h
    split_ifs at h <;> simp at h
  · rw [newFull_regex, mooEditFilterNewRegex, mooEditFilterNewRegex] at h
    have hlength : s ≠ regexPrefix ++ s := fun heq => by
      have := congrArg List.length heq
      simp [regexPrefix] at this
      omega
    split_ifs at h <;> simp [hlength] at h

/-- A filter of the store is read again from its string exactly if it has not been an ambiguous
pattern behind `regex:`. -/
theorem filterSettingNew_getString_iff {setting : FilterSetting}
    (h : filterSettingNew compiles string config = some setting) :
    filterSettingNew compiles setting.filter.getString setting.config = some setting ↔
      ∀ pattern, string = regexPrefix ++ pattern → ¬ Ambiguous pattern := by
  obtain ⟨filter, hfilter, rfl⟩ := Option.map_eq_some_iff.1 h
  have hread : filterSettingNew compiles filter.getString config = some ⟨filter, config⟩ ↔
      mooEditFilterNewFull compiles filter.getString .config = some filter := by
    rw [filterSettingNew, Option.map_eq_some_iff]
    simp
  have hpattern (s : List Char) : (mooEditFilterNewRegex compiles s).getString = s := by
    rw [mooEditFilterNewRegex]
    split_ifs <;> rfl
  rw [hread]
  by_cases hplain : ¬ Ambiguous string
  · obtain rfl := Option.some.inj ((newFull_of_not_ambiguous hplain).symm.trans hfilter)
    rw [hpattern]
    refine iff_of_true (newFull_of_not_ambiguous hplain) fun pattern heq => ?_
    exact absurd (.inr (.inr (.inr ⟨pattern, heq.symm⟩))) hplain
  rcases not_not.1 hplain with rfl | ⟨s, rfl⟩ | ⟨s, rfl⟩ | ⟨s, rfl⟩
  · simp [mooEditFilterNewFull] at hfilter
  · obtain rfl := Option.some.inj ((newFull_langs s).symm.trans hfilter)
    refine iff_of_true ?_ fun pattern heq => by simp [langsPrefix, regexPrefix] at heq
    rw [MooEditFilter.getString, newFull_langs, parseLangs_parseLangs]
  · obtain rfl := Option.some.inj ((newFull_globs s).symm.trans hfilter)
    refine iff_of_true ?_ fun pattern heq => by simp [globsPrefix, regexPrefix] at heq
    rw [MooEditFilter.getString, newFull_globs, parseGlobs_parseGlobs]
  · obtain rfl := Option.some.inj ((newFull_regex s).symm.trans hfilter)
    rw [hpattern, newFull_pattern_iff]
    simp

end Filter

/-! ## The store comes back -/

theorem filterMap_eq_self_iff {α : Type*} {f : α → Option α} {l : List α} :
    l.filterMap f = l ↔ ∀ a ∈ l, f a = some a := by
  refine ⟨fun h => ?_, fun h => ?_⟩
  · induction l with
    | nil => exact nofun
    | cons a l ih =>
      cases ha : f a with
      | none =>
        have hlength := List.length_filterMap_le f l
        rw [List.filterMap_cons_none ha] at h
        rw [h, List.length_cons] at hlength
        omega
      | some b =>
        rw [List.filterMap_cons_some ha] at h
        obtain ⟨rfl, hl⟩ := List.cons_eq_cons.1 h
        exact List.forall_mem_cons.2 ⟨ha, ih hl⟩
  · rw [List.filterMap_congr h, List.filterMap_some]

/-- The settings in the store come back from their strings exactly if no filter has been `regex:`
with an ambiguous pattern. -/
theorem setStrings_getStrings_iff (compiles : List Char → Bool)
    (list : List (List Char × List Char)) :
    setStrings compiles (getStrings (setStrings compiles list)) = setStrings compiles list ↔
      ∀ setting ∈ list, ∀ pattern, setting.1 = regexPrefix ++ pattern → ¬ Ambiguous pattern := by
  have hmap : setStrings compiles (getStrings (setStrings compiles list)) =
      (setStrings compiles list).filterMap
        fun s => filterSettingNew compiles s.filter.getString s.config := by
    rw [setStrings, getStrings, List.filterMap_map]
    rfl
  rw [hmap, filterMap_eq_self_iff]
  refine ⟨fun h setting hsetting pattern heq => ?_, fun h s hs => ?_⟩
  · have hnew : filterSettingNew compiles setting.1 setting.2 =
        some ⟨mooEditFilterNewRegex compiles pattern, setting.2⟩ := by
      rw [filterSettingNew, heq, newFull_regex]
      rfl
    exact (filterSettingNew_getString_iff hnew).1
      (h _ (List.mem_filterMap.2 ⟨setting, hsetting, hnew⟩)) pattern heq
  · obtain ⟨setting, hsetting, hnew⟩ := List.mem_filterMap.1 hs
    exact (filterSettingNew_getString_iff hnew).2 (h setting hsetting)

/-- A pattern that begins with `langs:` comes back as a list of languages. -/
theorem setStrings_getStrings_langs :
    setStrings (fun _ => true)
        (getStrings (setStrings (fun _ => true) [("regex:langs:c".toList, "a: 1".toList)])) ≠
      setStrings (fun _ => true) [("regex:langs:c".toList, "a: 1".toList)] := by
  decide

end Medit.FilterSettings
