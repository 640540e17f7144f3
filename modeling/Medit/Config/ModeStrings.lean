import Medit.Config.FilterSettings
import Medit.Config.ParseTexts
import Medit.Library.LineNumbers
import Medit.Library.Leftmost

/-!
# Mode strings

Translation of `parse_mode_string` and what is around it in `mooedit/mooedit.cpp`: settings of a
document in one of its lines, written for Kate, for Emacs or for this editor. Which languages there
are, and what is white space to GLib, are parameters.

## Main definitions

* `readVar`, `modeSettings`, `parseModeString` — the splitter that two of the styles share.
* `tryModeString` — what a line does.
* `IsSetting` — how a setting is written.

## Main results

* `readVar_eq_some` — a piece is read if it is a setting.
* `modeSettings_join` — the settings of a text are read up to a piece that is none.
* `foldl_parseOne_twice` — to set the same settings again does nothing.
-/

namespace Medit.ModeLines

open FilterSettings Words Leftmost

/-! ## Model -/

/-- `g_ascii_strcasecmp`, with a name in lower case -/
def strcasecmp (s name : List Char) : Bool := s.map Char.toLower == name

/-- What a piece sets, unless it is malformed. -/
def readVar (sep : Char) (p : List Char) : Option (List Char × List Char) :=
  let p := strip isSpace p
  let var := p.takeWhile (· ≠ sep)
  match p.dropWhile (· ≠ sep) with
  | [] | [_] => none
  | _ :: value =>
    if strip isSpace var = [] then none else some (strip isSpace var, strip isSpace value)

/-- The settings that the loop in `parse_mode_string` gets to. -/
def modeSettings (sep : Char) : List (List Char) → List (List Char × List Char)
  | [] => []
  | p :: vars =>
    match readVar sep p with
    | none => []
    | some setting => setting :: modeSettings sep vars

section Model

variable {V : Type*} [DecidableEq V] (langs : List Char → Bool) (isUnicharSpace : Char → Bool)
  (d : ℕ)

/-- `parse_mode_string` -/
def parseModeString (sep : Char) (func : List Char → List Char → EditConfigs V → EditConfigs V)
    (string : List Char) (c : EditConfigs V) : EditConfigs V :=
  (modeSettings sep ((strip isSpace string).splitOn ';')).foldl
    (fun c (name, value) => func name value c) c

/-- `moo_edit_config_parse_bool` -/
def parseBool (string : List Char) : Option Bool :=
  if ["true", "on", "yes", "1"].any fun s => strcasecmp string s.toList then some true
  else if ["false", "off", "no", "0"].any fun s => strcasecmp string s.toList then some false
  else none

/-- `set_kate_var` -/
def setKateVar (name value : List Char) (c : EditConfigs V) : EditConfigs V :=
  if strcasecmp name "space-indent".toList then
    match parseBool value with
    | some spaces =>
      c.parseOne d "indent-use-tabs".toList (if spaces then "false" else "true").toList .file
    | none => c
  else c.parseOne d name value .file

/-- `parse_kate_mode_string` -/
def parseKateModeString (string : List Char) (c : EditConfigs V) : EditConfigs V :=
  parseModeString ' ' (setKateVar d) string c

/-- `set_emacs_var` -/
def setEmacsVar (name value : List Char) (c : EditConfigs V) : EditConfigs V :=
  if strcasecmp name "mode".toList then c.parseOne d "lang".toList value .file
  else if strcasecmp name "tab-width".toList then c.parseOne d "tab-width".toList value .file
  else if strcasecmp name "c-basic-offset".toList then
    c.parseOne d "indent-width".toList value .file
  else if strcasecmp name "indent-tabs-mode".toList then
    c.parseOne d "indent-use-tabs".toList
      (if strcasecmp value "nil".toList then "false" else "true").toList .file
  else c

/-- `_moo_lang_mgr_find_lang`, by the ids of the languages. -/
def findLang (name : List Char) : Bool :=
  if name = "none".toList then false
  else
    langs (mooLangIdFromName
      (if strcasecmp name "c++".toList then "cpp".toList
      else if strcasecmp name "nxml".toList then "xml".toList
      else if strcasecmp name "cperl".toList then "perl".toList
      else name))

/-- `parse_emacs_mode_string` -/
def parseEmacsModeString (string : List Char) (c : EditConfigs V) : EditConfigs V :=
  let string := strip isSpace string
  if findLang langs string then setEmacsVar d "mode".toList string c
  else parseModeString ':' (setEmacsVar d) string c

/-- `parse_moo_mode_string` -/
def parseMooModeString (string : List Char) (c : EditConfigs V) : EditConfigs V :=
  ConfigText.mooEditConfigParse isUnicharSpace c d string .file

def kateModeString : List Char := "kate:".toList
def emacsModeString : List Char := "-*-".toList
def mooModeString : List Char := "-%-".toList

/-- What is between the first two occurrences of a marker, unless that is nothing. -/
def between (marker string : List Char) : Option (List Char) :=
  (strstr marker string).bind fun start =>
    let inner := string.drop (start + marker.length)
    (strstr marker inner).bind fun stop => if 0 < stop then some (inner.take stop) else none

/-- `try_mode_string` -/
def tryModeString (string : List Char) (c : EditConfigs V) : EditConfigs V :=
  match strstr kateModeString string with
  | some start => parseKateModeString d (string.drop (start + kateModeString.length)) c
  | none =>
    match between emacsModeString string with
    | some inner => parseEmacsModeString langs d inner c
    | none =>
      match between mooModeString string with
      | some inner => parseMooModeString isUnicharSpace d inner c
      | none => c

end Model

/-! ## Settings in a text -/

/-- How a setting is written: with blanks around the name and the value, of which neither is
blank. -/
structure IsSetting (sep : Char) (name value piece : List Char) : Prop where
  exists_blanks : ∃ a b c : List Char, (∀ x ∈ a ++ b ++ c, isSpace x = true) ∧
    piece = a ++ name ++ sep :: (b ++ value ++ c)
  not_mem : sep ∉ name
  name_ne : strip isSpace name ≠ []
  value_ne : strip isSpace value ≠ []

variable {sep : Char} {name value piece : List Char}

/-- A setting without the blanks around it. -/
theorem IsSetting.strip_piece (h : IsSetting sep name value piece) : ∃ b : List Char,
    (∀ x ∈ b, isSpace x = true) ∧ strip isSpace piece =
      name.dropWhile isSpace ++ sep :: (b ++ value.rdropWhile isSpace) := by
  obtain ⟨⟨a, b, c, hblank, rfl⟩, -, hname, hvalue⟩ := h
  simp only [List.forall_mem_append] at hblank
  obtain ⟨⟨ha, hb⟩, hc⟩ := hblank
  refine ⟨b, hb, ?_⟩
  have hback : (name.dropWhile isSpace ++ sep :: (b ++ value ++ c)).rdropWhile isSpace =
      name.dropWhile isSpace ++ sep :: (b ++ value.rdropWhile isSpace) := by
    have happend := rdropWhile_append_of_strip hvalue (name.dropWhile isSpace ++ sep :: b)
    rw [← rdropWhile_append_of_pos hc] at happend
    simpa using happend
  rw [strip, List.append_assoc, List.dropWhile_append_of_pos ha,
    dropWhile_append_of_strip hname, hback]

theorem IsSetting.readVar (h : IsSetting sep name value piece) :
    readVar sep piece = some (strip isSpace name, strip isSpace value) := by
  obtain ⟨b, hb, hstrip⟩ := h.strip_piece
  have hname : ∀ x ∈ name.dropWhile isSpace, decide (x ≠ sep) = true := fun x hx => by
    have hmem := (List.dropWhile_sublist _).subset hx
    simpa using fun heq : x = sep => h.not_mem (heq ▸ hmem)
  have hne : b ++ value.rdropWhile isSpace ≠ [] := by
    intro hnil
    refine h.value_ne ?_
    rw [← strip_rdropWhile, (List.append_eq_nil_iff.1 hnil).2]
    rfl
  have hvalue : strip isSpace (b ++ value.rdropWhile isSpace) =
      strip isSpace value := by
    have happend := strip_append (s := value.rdropWhile isSpace) (c := []) (by simpa using hb)
    rwa [List.append_nil, strip_rdropWhile] at happend
  obtain ⟨x, rest, hrest⟩ := List.exists_cons_of_ne_nil hne
  rw [hrest] at hstrip hvalue
  simp only [ModeLines.readVar, hstrip, List.takeWhile_append_of_pos hname,
    List.dropWhile_append_of_pos hname]
  simp [strip_dropWhile, h.name_ne, hvalue]

/-- A piece is read if it is a setting. -/
theorem exists_of_readVar {setting : List Char × List Char} (h : readVar sep piece = some setting) :
    ∃ name value, IsSetting sep name value piece := by
  obtain ⟨a, c, hblank, hpiece⟩ := exists_strip isSpace piece
  simp only [readVar] at h
  split at h
  · simp at h
  · simp at h
  · next x value hne hdrop =>
    split_ifs at h with hname
    have hx : x = sep := by
      have hhead := List.head?_dropWhile_not (· ≠ sep) (strip isSpace piece)
      rw [hdrop] at hhead
      simpa using hhead
    subst hx
    have hstrip := List.takeWhile_append_dropWhile (p := (· ≠ x)) (l := strip isSpace piece)
    rw [hdrop] at hstrip
    refine ⟨(strip isSpace piece).takeWhile (· ≠ x), value, ⟨a, [], c, by simpa using hblank, ?_⟩,
      fun hmem => by simpa using List.mem_takeWhile_imp hmem, hname, fun hvalue => ?_⟩
    · rw [← hstrip] at hpiece
      simpa using hpiece
    · -- the end of the piece is not blank
      refine not_blank_of_strip_eq (s := piece)
        (u := (strip isSpace piece).takeWhile (· ≠ x) ++ [x]) ?_
       
        hne hvalue
      simpa using hstrip.symm

theorem readVar_strip (sep : Char) (piece : List Char) :
    readVar sep (strip isSpace piece) = readVar sep piece := by
  simp only [readVar, strip_strip]

theorem modeSettings_map_strip (sep : Char) (pieces : List (List Char)) :
    modeSettings sep (pieces.map (strip isSpace)) = modeSettings sep pieces := by
  induction pieces with
  | nil => rfl
  | cons p pieces ih => simp only [List.map_cons, modeSettings, readVar_strip, ih]

/-- A setting and how it is written. -/
structure Written where
  name : List Char
  value : List Char
  piece : List Char

/-- The pair that is passed to the setter. -/
def Written.trimmed (w : Written) : List Char × List Char :=
  (strip isSpace w.name, strip isSpace w.value)

/-- Settings, and what follows them, if the first piece of that is no setting. -/
structure IsSettings (sep : Char) (settings : List Written) (rest : List (List Char)) : Prop where
  isSetting : ∀ w ∈ settings, IsSetting sep w.name w.value w.piece
  not_mem : ∀ p ∈ settings.map Written.piece ++ rest, ';' ∉ p
  malformed : ∀ p ∈ rest.head?, ∀ name value, ¬ IsSetting sep name value p

/-- The pieces of a text. -/
def joined (settings : List Written) (rest : List (List Char)) : List Char :=
  [';'].intercalate (settings.map Written.piece ++ rest)

variable {settings : List Written} {rest : List (List Char)}

theorem modeSettings_append (h : IsSettings sep settings rest) :
    modeSettings sep (settings.map Written.piece ++ rest) = settings.map Written.trimmed := by
  obtain ⟨hsettings, -, hrest⟩ := h
  induction settings with
  | nil =>
    cases rest with
    | nil => rfl
    | cons p rest =>
      have hp : readVar sep p = none := by
        rw [Option.eq_none_iff_forall_ne_some]
        intro setting hread
        obtain ⟨name, value, hsetting⟩ := exists_of_readVar hread
        exact hrest p rfl name value hsetting
      simp [modeSettings, hp]
  | cons w settings ih =>
    obtain ⟨hw, hsettings⟩ := List.forall_mem_cons.1 hsettings
    simp only [List.map_cons, List.cons_append, modeSettings, hw.readVar, ih hsettings]
    rfl

/-- The settings of a text are passed to the setter, up to a piece that is none. -/
theorem parseModeString_joined {V : Type*} (h : IsSettings sep settings rest)
    (func : List Char → List Char → EditConfigs V → EditConfigs V) (c : EditConfigs V) :
    parseModeString sep func (joined settings rest) c =
      (settings.map Written.trimmed).foldl (fun c (name, value) => func name value c) c := by
  have hblank : ∀ x, isSpace x = true → (x == ';') = false := by
    intro x hx
    rw [beq_eq_false_iff_ne]
    rintro rfl
    simp [isSpace] at hx
  rw [parseModeString, ← modeSettings_map_strip, List.splitOn, map_strip_splitOnP_strip hblank,
    modeSettings_map_strip, joined]
  by_cases hl : settings.map Written.piece ++ rest = []
  · obtain ⟨hnil, rfl⟩ := List.append_eq_nil_iff.1 hl
    rw [List.map_eq_nil_iff] at hnil
    subst hnil
    rfl
  · rw [← List.splitOn, List.splitOn_intercalate _ h.not_mem hl, modeSettings_append h]

/-! ## Settings that are set twice -/

section Twice

open ConfigValue Priority EditConfigs

variable {V : Type*} {source : MooEditConfigSource} {values : List (ConfigValue V)} {d q : ℕ}

/-- The last value that is set of a setting. -/
def lastSet (q : ℕ) (acc : Option V) (sets : List (ℕ × V)) : Option V :=
  sets.foldl (fun acc s => if s.1 = q then some s.2 else acc) acc

/-- A value after another one may have been set. -/
def override (source : MooEditConfigSource) (value : Option V) (old : ConfigValue V) :
    ConfigValue V :=
  value.elim old fun value => pick rank ⟨value, source⟩ old

theorem pick_override (acc : Option V) (value : V) (old : ConfigValue V) :
    pick rank ⟨value, source⟩ (override source acc old) = override source (some value) old := by
  cases acc with
  | none => rfl
  | some v =>
    simp only [override, Option.elim_some, pick, rank]
    grind

theorem override_override (value : Option V) (old : ConfigValue V) :
    override source value (override source value old) = override source value old := by
  cases value with
  | none => rfl
  | some v => exact pick_override (some v) v old

variable [DecidableEq V]

/-- The values of a document after several have been set. -/
def setAll (source : MooEditConfigSource) (sets : List (ℕ × V)) (values : List (ConfigValue V)) :
    List (ConfigValue V) :=
  sets.foldl (fun values s => (setValue source values s.1 s.2).1) values

/-- The last value that is set counts. -/
theorem getElem?_setAll (sets : List (ℕ × V)) :
    (setAll source sets values)[q]? =
      values[q]?.map (override source (lastSet q none sets)) := by
  suffices h : ∀ (acc : Option V) (old : ConfigValue V) (values : List (ConfigValue V)),
      values[q]? = some (override source acc old) →
        (setAll source sets values)[q]? = some (override source (lastSet q acc sets) old) by
    cases hold : values[q]? with
    | none =>
      have hlength : (setAll source sets values).length = values.length := by
        clear h hold
        unfold setAll
        induction sets generalizing values with
        | nil => rfl
        | cons s sets ih => rw [List.foldl_cons, ih, length_setValue]
      simpa [hlength] using hold
    | some old => exact h none old values hold
  induction sets with
  | nil => exact fun acc old values h => h
  | cons s sets ih =>
    intro acc old values h
    have hset : (setValue source values s.1 s.2).1[q]? =
        some (if q = s.1 then pick rank ⟨s.2, source⟩ (override source acc old)
          else override source acc old) := getElem?_setValue h
    refine ih (if s.1 = q then some s.2 else acc) old _ (hset.trans ?_)
    split_ifs with hq hs hs
    · rw [pick_override]
    · exact absurd hq.symm hs
    · exact absurd hs.symm hq
    · rfl

theorem setAll_twice (sets : List (ℕ × V)) :
    setAll source sets (setAll source sets values) = setAll source sets values := by
  refine List.ext_getElem? fun q => ?_
  rw [getElem?_setAll, getElem?_setAll, Option.map_map]
  refine congrArg (Option.map · _) (funext fun old => override_override _ old)

/-- Settings of a document that are set one after the other. -/
def parseAll (d : ℕ) (source : MooEditConfigSource) (calls : List (List Char × List Char))
    (c : EditConfigs V) : EditConfigs V :=
  calls.foldl (fun c (name, value) => c.parseOne d name value source) c

theorem parseAll_eq (calls : List (List Char × List Char)) (c : EditConfigs V) :
    parseAll d source calls c =
      { c with instances := Function.update c.instances d ((c.instances d).map
          (setAll source (calls.filterMap fun s => c.parsed s.1 s.2))) } := by
  induction calls generalizing c with
  | nil =>
    have hid : (c.instances d).map (setAll source []) = c.instances d := by
      cases c.instances d <;> rfl
    simp [parseAll, hid]
  | cons s calls ih =>
    have hstep : c.parseOne d s.1 s.2 source =
        { c with instances := Function.update c.instances d ((c.instances d).map
            (setAll source (c.parsed s.1 s.2).toList)) } := by
      unfold parseOne
      cases hd : c.instances d with
      | none =>
        have hid : Function.update c.instances d none = c.instances := by
          rw [← hd, Function.update_eq_self]
        simp [hid]
      | some values =>
        cases c.parsed s.1 s.2 with
        | none =>
          have hid : Function.update c.instances d (some values) = c.instances := by
            rw [← hd, Function.update_eq_self]
          simp [setAll, hid]
        | some set => rfl
    have hparsed : (c.parseOne d s.1 s.2 source).parsed = c.parsed := by
      rw [hstep]
      rfl
    have hcons : parseAll d source (s :: calls) c =
        parseAll d source calls (c.parseOne d s.1 s.2 source) := rfl
    rw [hcons, ih, hparsed, hstep]
    cases c.instances d with
    | none => simp
    | some values =>
      cases hset : c.parsed s.1 s.2 <;> simp [hset, setAll]

theorem parseAll_twice (calls : List (List Char × List Char)) (c : EditConfigs V) :
    parseAll d source calls (parseAll d source calls c) = parseAll d source calls c := by
  have hparsed : (parseAll d source calls c).parsed = c.parsed := by
    rw [parseAll_eq]
    rfl
  rw [parseAll_eq, hparsed, parseAll_eq]
  have htwice : setAll source (calls.filterMap fun s => c.parsed s.1 s.2) ∘
      setAll source (calls.filterMap fun s => c.parsed s.1 s.2) =
        setAll source (calls.filterMap fun s => c.parsed s.1 s.2) :=
    funext fun values => setAll_twice _
  simp [Option.map_map, htwice]

/-! ## What a line sets -/

/-- Something that sets settings of a document from a file, and does nothing else. -/
def SetsFile (d : ℕ) (f : EditConfigs V → EditConfigs V) : Prop :=
  ∃ calls, ∀ c, f c = parseAll d .file calls c

namespace SetsFile

variable {f : EditConfigs V → EditConfigs V}

theorem id : SetsFile d fun c : EditConfigs V => c := ⟨[], fun _ => rfl⟩

theorem parseOne (name value : List Char) :
    SetsFile d fun c : EditConfigs V => c.parseOne d name value .file :=
  ⟨[(name, value)], fun _ => rfl⟩

theorem foldl {α : Type*} {g : α → EditConfigs V → EditConfigs V} (hg : ∀ a, SetsFile d (g a))
    (l : List α) : SetsFile d fun c => l.foldl (fun c a => g a c) c := by
  choose calls hcalls using hg
  refine ⟨l.flatMap calls, fun c => ?_⟩
  induction l generalizing c with
  | nil => rfl
  | cons a l ih =>
    refine (ih (g a c)).trans ?_
    rw [hcalls, List.flatMap_cons]
    exact List.foldl_append.symm

/-- The same settings are not set again. -/
theorem twice (hf : SetsFile d f) (c : EditConfigs V) : f (f c) = f c := by
  obtain ⟨calls, hcalls⟩ := hf
  simp only [hcalls, parseAll_twice]

end SetsFile

theorem setsFile_setKateVar (name value : List Char) :
    SetsFile d (setKateVar (V := V) d name value) := by
  unfold setKateVar
  split
  · cases parseBool value with
    | none => exact .id
    | some spaces => exact .parseOne _ _
  · exact .parseOne name value

theorem setsFile_setEmacsVar (name value : List Char) :
    SetsFile d (setEmacsVar (V := V) d name value) := by
  unfold setEmacsVar
  repeat' split
  · exact .parseOne _ value
  · exact .parseOne _ value
  · exact .parseOne _ value
  · exact .parseOne _ _
  · exact .parseOne _ _
  · exact SetsFile.id (V := V)

variable (langs : List Char → Bool) (isUnicharSpace : Char → Bool) (string : List Char)

theorem setsFile_parseEmacsModeString :
    SetsFile d (parseEmacsModeString (V := V) langs d string) := by
  cases h : findLang langs (strip isSpace string) with
  | true =>
    have hmode : parseEmacsModeString (V := V) langs d string =
        setEmacsVar d "mode".toList (strip isSpace string) :=
      funext fun c => by simp only [parseEmacsModeString, h, if_true]
    exact hmode ▸ setsFile_setEmacsVar _ _
  | false =>
    have hvars : parseEmacsModeString (V := V) langs d string =
        parseModeString ':' (setEmacsVar d) (strip isSpace string) :=
      funext fun c => by simp only [parseEmacsModeString, h, Bool.false_eq_true, if_false]
    exact hvars ▸ .foldl (fun s : List Char × List Char => setsFile_setEmacsVar s.1 s.2) _

theorem setsFile_tryModeString :
    SetsFile d (tryModeString (V := V) langs isUnicharSpace d string) := by
  unfold tryModeString
  split
  · exact .foldl (fun s : List Char × List Char => setsFile_setKateVar s.1 s.2) _
  · split
    · exact setsFile_parseEmacsModeString langs _
    · split
      · exact .foldl (fun s : List Char × List Char => .parseOne s.1 s.2) _
      · exact SetsFile.id (V := V)

/-- A text of ends of lines has no effect. -/
theorem tryModeString_of_isDelim {string : List Char}
    (h : ∀ x ∈ string, Paragraphs.isDelim x = true) (c : EditConfigs V) :
    tryModeString langs isUnicharSpace d string c = c := by
  have hnone {x : Char} {marker : List Char} (hx : Paragraphs.isDelim x = false) :
      strstr (x :: marker) string = none := by
    refine strstr_eq_none.2 fun i _ hpre => ?_
    have hmem := List.mem_of_mem_drop (hpre.subset List.mem_cons_self)
    rw [h x hmem] at hx
    cases hx
  have hkate : strstr kateModeString string = none := hnone rfl
  have hemacs : strstr emacsModeString string = none := hnone rfl
  have hmoo : strstr mooModeString string = none := hnone rfl
  simp [tryModeString, between, hkate, hemacs, hmoo]

variable {langs isUnicharSpace string} {settings : List Written} {rest : List (List Char)}
  {before after : List Char}

/-- Settings for Kate. -/
theorem tryModeString_kate (h : IsSettings ' ' settings rest)
    (hline : string = before ++ kateModeString ++ joined settings rest)
    (hfirst : strstr kateModeString string = some before.length) (c : EditConfigs V) :
    tryModeString langs isUnicharSpace d string c =
      (settings.map Written.trimmed).foldl (fun c (name, value) => setKateVar d name value c)
        c := by
  have hdrop : string.drop (before.length + kateModeString.length) = joined settings rest := by
    rw [hline, ← List.length_append, List.drop_left]
  simp only [tryModeString, hfirst, hdrop]
  exact parseModeString_joined h _ c

/-- Settings for Emacs. -/
theorem tryModeString_emacs (h : IsSettings ':' settings rest) (hne : joined settings rest ≠ [])
    (hline : string =
      before ++ emacsModeString ++ (joined settings rest ++ emacsModeString ++ after))
    (hkate : strstr kateModeString string = none)
    (hfirst : strstr emacsModeString string = some before.length)
    (hsecond : strstr emacsModeString (joined settings rest ++ emacsModeString ++ after) =
      some (joined settings rest).length)
    (hlang : findLang langs (strip isSpace (joined settings rest)) = false) (c : EditConfigs V) :
    tryModeString langs isUnicharSpace d string c =
      (settings.map Written.trimmed).foldl (fun c (name, value) => setEmacsVar d name value c)
        c := by
  have hdrop : string.drop (before.length + emacsModeString.length) =
      joined settings rest ++ emacsModeString ++ after := by
    rw [hline, ← List.length_append, List.drop_left]
  have hbetween : between emacsModeString string = some (joined settings rest) := by
    have htake : (joined settings rest ++ emacsModeString ++ after).take
        (joined settings rest).length = joined settings rest := by
      rw [List.append_assoc, List.take_left]
    simp only [between, hfirst, Option.bind_some, hdrop, hsecond, List.length_pos_iff.2 hne,
      if_true, htake]
  have hstrip : parseModeString ':' (setEmacsVar d) (strip isSpace (joined settings rest)) c =
      parseModeString ':' (setEmacsVar d) (joined settings rest) c := by
    simp only [parseModeString, strip_strip]
  simp only [tryModeString, hkate, hbetween, parseEmacsModeString, hlang, Bool.false_eq_true,
    if_false, hstrip]
  exact parseModeString_joined h _ c

end Twice

end Medit.ModeLines
