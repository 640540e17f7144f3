import Medit.Config.EditConfig
import Medit.Config.Parse

/-!
# Texts of settings

Settings that are written in either way, one after the other, and what `moo_edit_config_parse` reads
of them.

## Main definitions

* `Setting.text`, `write` — the two ways to write a setting, and settings that are joined.
* `mooEditConfigParse` — the settings of a text, set for a document.

## Main results

* `parse_iff` — when settings are read as they were written, when two texts are read one after
  the other, and when no character is read behind the end.
-/

namespace Medit.ConfigText

open Words

variable {isSpace : Char → Bool} {string name value rest : List Char}

/-! ## Texts of settings -/

/-- A setting to be written: with the character that is put around the value, or with a colon. -/
structure Setting where
  name : List Char
  value : List Char
  quote : Option Char

def Setting.signed (setting : Setting) : List Char :=
  match setting.quote with
  | none => ':' :: ' ' :: setting.value
  | some c => '=' :: c :: (setting.value ++ [c])

/-- `name: value`, or `name=` with the value between two equal characters. -/
def Setting.text (setting : Setting) : List Char := setting.name ++ setting.signed

/-- Settings with what stands before each of them. -/
def joined (settings : List (List Char × Setting)) : List Char :=
  settings.flatMap fun (glue, setting) => glue ++ setting.text

/-- A text of settings. Nothing stands before the first one. -/
def write : List (List Char × Setting) → List Char
  | [] => []
  | (_, setting) :: settings => setting.text ++ joined settings

/-- The settings that are written. -/
def pairs (settings : List (List Char × Setting)) : List (List Char × List Char) :=
  settings.map fun (_, setting) => (setting.name, setting.value)

/-- White space, or a separator with white space around it. -/
inductive IsGlue (isSpace : Char → Bool) : List Char → Prop
  | blank {glue : List Char} (hne : glue ≠ []) (hglue : Blank isSpace glue) : IsGlue isSpace glue
  | separator {before after : List Char} {separator : Char} (hbefore : Blank isSpace before)
    (hseparator : isSeparator separator = true) (hafter : Blank isSpace after) :
    IsGlue isSpace (before ++ separator :: after)

/-- A setting that can be written. -/
structure Setting.Writable (isSpace : Char → Bool) (setting : Setting) : Prop where
  no_sign : ∀ c ∈ setting.name, isSign c = false
  strip : strip isSpace setting.name = setting.name
  value : match setting.quote with
    | none => ∀ c ∈ setting.value, endsValue isSpace c = false
    | some c => c ∉ setting.value

/-- A setting that can be read. -/
structure Setting.Readable (isSpace : Char → Bool) (setting : Setting) : Prop where
  name : setting.name ≠ []
  value : setting.value ≠ []
  quote : ∀ c ∈ setting.quote, isSpace c = false

/-- The front of the name is not taken for a separator before it. -/
def IsApart (isSpace : Char → Bool) (s : List Char × Setting) : Prop :=
  Blank isSpace s.1 → ∀ c ∈ s.2.name.head?, isSeparator c = false

variable {setting : Setting} {settings : List (List Char × Setting)}

theorem signed_eq_cons (setting : Setting) :
    ∃ sign text, setting.signed = sign :: text ∧ isSign sign = true := by
  unfold Setting.signed
  cases setting.quote with
  | none => exact ⟨_, _, rfl, rfl⟩
  | some c => exact ⟨_, _, rfl, rfl⟩

/-- A text begins with no white space. -/
theorem head_text (hspace : IsUnicharIsspace isSpace)
    (hstrip : strip isSpace setting.name = setting.name) (string : List Char) :
    ∀ c ∈ (setting.text ++ string).head?, isSpace c = false := by
  obtain ⟨sign, text, htext, hsign⟩ := signed_eq_cons setting
  intro c hc
  rw [Setting.text, htext] at hc
  cases hname : setting.name with
  | nil =>
    rw [hname] at hc
    obtain rfl : sign = c := by simpa using hc
    exact hspace.sign sign hsign
  | cons d name =>
    rw [hname] at hc hstrip
    obtain rfl : d = c := by simpa using hc
    exact skipSpace_eq_self.1 (strip_eq_self.1 hstrip).1 d rfl

theorem not_separator_of_sign {c : Char} (h : isSign c = true) : isSeparator c = false := by
  have hsign : c = ':' ∨ c = '=' := by simpa [isSign] using h
  rcases hsign with rfl | rfl <;> decide

theorem skipSeparator_sign (hspace : IsUnicharIsspace isSpace) {sign : Char}
    (hsign : isSign sign = true) (r x : List Char) :
    ∃ r', skipSeparator isSpace false (r ++ sign :: x) = r' ++ sign :: x ∧
      r'.length ≤ r.length := by
  obtain ⟨skipped, hr, hskips⟩ := exists_skips hspace r
  have hskips' : Skips isSpace (skipSeparator isSpace false r ++ sign :: x) skipped :=
    hskips.append fun _ => ⟨by simpa using hspace.sign sign hsign,
      by simpa using not_separator_of_sign hsign⟩
  refine ⟨skipSeparator isSpace false r, ?_, length_skipSeparator_le isSpace false r⟩
  conv_lhs => rw [hr]
  rw [List.append_assoc]
  exact hskips'.skipSeparator hspace

theorem skipSpace_sign (hspace : IsUnicharIsspace isSpace) {sign : Char}
    (hsign : isSign sign = true) (r x : List Char) :
    skipSpace isSpace (r ++ sign :: x) = skipSpace isSpace r ++ sign :: x := by
  obtain ⟨lead, hr, hlead, hhead⟩ := exists_skipSpace isSpace r
  conv_lhs => rw [hr, List.append_assoc, skipSpace_append hlead]
  rw [skipSpace_eq_self]
  cases hr' : skipSpace isSpace r with
  | nil => simpa using hspace.sign sign hsign
  | cons d r' => simpa [hr'] using hhead

theorem mem_of_append_cons_eq {l l' s t : List Char} {c : Char} (h : l ++ c :: s = l' ++ t)
    (hlength : l.length < l'.length) : c ∈ l' := by
  rcases List.append_eq_append_iff.1 h with ⟨a, rfl, ha⟩ | ⟨a, rfl, -⟩
  · cases a with
    | nil => simp at hlength
    | cons d a =>
      obtain rfl : c = d := (List.cons.inj ha).1
      simp
  · rw [List.length_append] at hlength
    omega

theorem blank_append_inj {a b s t : List Char} {c d : Char} (h : a ++ c :: s = b ++ d :: t)
    (ha : Blank isSpace a) (hb : Blank isSpace b) (hc : isSpace c = false)
    (hd : isSpace d = false) : a = b ∧ c = d ∧ s = t := by
  have hskip := congrArg (skipSpace isSpace) h
  rw [skipSpace_append ha, skipSpace_append hb, skipSpace_eq_self.2 (by simpa using hc),
    skipSpace_eq_self.2 (by simpa using hd)] at hskip
  rw [hskip] at h
  exact ⟨List.append_cancel_right h, List.cons.inj hskip⟩

/-- What the first round has read. -/
theorem readOne_of_parse {l : List (List Char × List Char)}
    (h : (parse isSpace string).1 = (name, value) :: l) :
    ∃ rest, readOne isSpace string = .set name value rest ∧
      (parse isSpace (skipSeparator isSpace false rest)).1 = l := by
  cases hread : readOne isSpace string with
  | stop how =>
    rw [parse_of_stop hread] at h
    cases h
  | set name' value' rest =>
    rw [parse_of_set hread] at h
    simp only [List.cons.injEq, Prod.mk.injEq] at h
    obtain ⟨⟨rfl, rfl⟩, h⟩ := h
    exact ⟨rest, rfl, h⟩

/-- The sign comes too early for a longer name. -/
theorem parse_ne_of_sign (hspace : IsUnicharIsspace isSpace) {r x : List Char} {sign : Char}
    {l : List (List Char × List Char)} (hsign : isSign sign = true)
    (hlength : r.length < name.length) :
    (parse isSpace (r ++ sign :: x)).1 ≠ (name, value) :: l := by
  intro h
  obtain ⟨rest, hread, -⟩ := readOne_of_parse h
  obtain ⟨lead, gap, text, heq, hlead, hname, -⟩ := exists_of_readOne hread
  rw [← List.append_assoc lead name] at heq
  have hmem := mem_of_append_cons_eq heq (by rw [List.length_append]; omega)
  rcases List.mem_append.1 hmem with hmem | hmem
  · have hblank := hlead sign hmem
    rw [hspace.sign sign hsign] at hblank
    cases hblank
  · rw [hname.no_sign sign hmem] at hsign
    cases hsign

theorem parse_skipSeparator_ne_of_sign (hspace : IsUnicharIsspace isSpace) {r x : List Char}
    {sign : Char} {l : List (List Char × List Char)} (hsign : isSign sign = true)
    (hlength : r.length < name.length) :
    (parse isSpace (skipSeparator isSpace false (r ++ sign :: x))).1 ≠ (name, value) :: l := by
  obtain ⟨r', hr', hle⟩ := skipSeparator_sign hspace hsign r x
  rw [hr']
  exact parse_ne_of_sign hspace hsign (by omega)

/-! ## Settings that are read as they were written -/

theorem IsGlue.head {glue : List Char} (h : IsGlue isSpace glue) (string : List Char) :
    ∀ c ∈ (glue ++ string).head?, endsValue isSpace c = true := by
  cases h with
  | blank hne hglue =>
    obtain ⟨d, glue, rfl⟩ := List.exists_cons_of_ne_nil hne
    simp [endsValue, hglue d List.mem_cons_self]
  | @separator before _ _ hbefore hseparator hafter =>
    cases before with
    | nil => simp [endsValue, hseparator]
    | cons d before => simp [endsValue, hbefore d List.mem_cons_self]

theorem head_joined (hglue : ∀ s ∈ settings, IsGlue isSpace s.1) :
    ∀ c ∈ (joined settings).head?, endsValue isSpace c = true := by
  cases settings with
  | nil => nofun
  | cons s settings =>
    rw [joined, List.flatMap_cons, List.append_assoc]
    exact (hglue s List.mem_cons_self).head _

/-- A setting is read as it was written. -/
theorem readOne_text (hspace : IsUnicharIsspace isSpace) (hwritable : setting.Writable isSpace)
    (hreadable : setting.Readable isSpace) (hrest : ∀ c ∈ rest.head?, endsValue isSpace c = true) :
    readOne isSpace (setting.text ++ rest) = .set setting.name setting.value rest := by
  have hname : IsName isSpace setting.name :=
    ⟨hreadable.name, hwritable.no_sign, hwritable.strip⟩
  have hvalue : IsValue isSpace setting.value rest setting.signed := by
    have hw := hwritable.value
    have hr := hreadable.quote
    unfold Setting.signed
    cases hquote : setting.quote with
    | none =>
      rw [hquote] at hw
      have hgap : Blank isSpace [' '] := by simpa [Blank] using hspace.blank
      exact .colon hgap hreadable.value hw hrest
    | some c =>
      rw [hquote] at hw hr
      exact .assign blank_nil hreadable.value (hr c rfl) fun hmem => hw (List.mem_of_mem_tail hmem)
  rw [Setting.text, List.append_assoc]
  exact readOne_setting hspace blank_nil hname blank_nil hvalue

/-- If the white space around a value is skipped, the next name is not read from its start. -/
theorem parse_rest_ne (hspace : IsUnicharIsspace isSpace)
    (hsettings : ∀ s ∈ settings, IsGlue isSpace s.1 ∧ s.2.Writable isSpace) {gap : List Char}
    {separator : Char} (hgap : Blank isSpace gap) (hvalue : Blank isSpace value)
    (hseparator : isSpace separator = false)
    (h : joined settings = gap ++ separator :: (value ++ separator :: rest)) :
    (parse isSpace (skipSeparator isSpace false rest)).1 ≠ pairs settings := by
  cases settings with
  | nil => simp [joined] at h
  | cons s settings =>
    obtain ⟨glue, setting⟩ := s
    obtain ⟨⟨hglue, hwritable⟩, -⟩ := List.forall_mem_cons.1 hsettings
    obtain ⟨sign, text, htext, hsign⟩ := signed_eq_cons setting
    intro hparse
    obtain ⟨_, hread, -⟩ := readOne_of_parse hparse
    obtain ⟨-, -, -, -, -, hname, -, -⟩ := exists_of_readOne hread
    obtain ⟨d, name, hd⟩ := List.exists_cons_of_ne_nil hname.ne_nil
    have hdspace : isSpace d = false := by
      have hhead := head_text hspace hwritable.strip []
      simpa [Setting.text, hd] using hhead
    have hjoined : joined ((glue, setting) :: settings) =
        glue ++ d :: (name ++ sign :: (text ++ joined settings)) := by
      simp [joined, Setting.text, hd, htext]
    -- Only a part of the name is left.
    obtain ⟨r, hr, hlength⟩ : ∃ r, rest = r ++ sign :: (text ++ joined settings) ∧
        r.length < setting.name.length := by
      rw [hjoined] at h
      cases hglue with
      | blank hne hblank =>
        obtain ⟨-, rfl, heq⟩ := blank_append_inj h hblank hgap hdspace hseparator
        have hds : d ≠ sign := by
          rintro rfl
          have hno := hwritable.no_sign d (by rw [hd]; exact List.mem_cons_self)
          simp [hsign] at hno
        rcases List.append_eq_append_iff.1 heq with ⟨a, rfl, ha⟩ | ⟨a, rfl, ha⟩
        · cases a with
          | nil => exact absurd (List.cons.inj ha).1.symm hds
          | cons e a =>
            obtain rfl := (List.cons.inj ha).1
            have hblank' := hvalue sign (by simp)
            simp [hspace.sign sign hsign] at hblank'
        · cases a with
          | nil => exact absurd (List.cons.inj ha).1 hds
          | cons e r =>
            refine ⟨r, (List.cons.inj ha).2, ?_⟩
            rw [hd, List.length_cons, List.length_append, List.length_cons]
            omega
      | separator hbefore hsep hafter =>
        simp only [List.append_eq, List.append_assoc, List.cons_append] at h
        obtain ⟨-, rfl, heq⟩ := blank_append_inj h hbefore hgap (hspace.separator _ hsep) hseparator
        obtain ⟨-, -, heq⟩ := blank_append_inj heq hafter hvalue hdspace hseparator
        exact ⟨name, heq.symm, by rw [hd]; exact Nat.lt_succ_self _⟩
    rw [hr] at hparse
    exact parse_skipSeparator_ne_of_sign hspace hsign hlength hparse

/-- A setting with white space around its value is not read as it was written. -/
theorem parse_text_ne (hspace : IsUnicharIsspace isSpace) (hwritable : setting.Writable isSpace)
    (hsettings : ∀ s ∈ settings, IsGlue isSpace s.1 ∧ s.2.Writable isSpace)
    (hreadable : ¬ setting.Readable isSpace) :
    (parse isSpace (setting.text ++ joined settings)).1 ≠
      (setting.name, setting.value) :: pairs settings := by
  intro h
  obtain ⟨rest, hread, hrest⟩ := readOne_of_parse h
  obtain ⟨-, -, text, -, -, hname, -, hvalue⟩ := exists_of_readOne hread
  have hne : setting.value ≠ [] := by cases hvalue <;> assumption
  obtain ⟨c, hquote, hc⟩ : ∃ c, setting.quote = some c ∧ isSpace c = true := by
    by_contra hno
    refine hreadable ⟨hname.ne_nil, hne, fun c hc => ?_⟩
    simpa using fun hblank => hno ⟨c, hc, hblank⟩
  have hfree : c ∉ setting.value := by simpa [hquote] using hwritable.value
  -- The white space is skipped, and the next character is taken for the one around the value.
  have htext : setting.text ++ joined settings =
      [] ++ (setting.name ++ ([] ++ '=' :: (c :: (setting.value ++ c :: joined settings)))) := by
    simp [Setting.text, Setting.signed, hquote]
  rw [htext, readOne_name hspace blank_nil hname blank_nil rfl, if_neg (by decide)] at hread
  obtain ⟨-, gap, separator, heq, hgap, -, hseparator, -⟩ := assignValue_eq_set.1 hread
  have hcs : c ≠ separator := by
    rintro rfl
    simp [hc] at hseparator
  cases gap with
  | nil => exact hcs (List.cons.inj heq).1
  | cons d gap =>
    rw [List.cons_append] at heq
    obtain ⟨-, heq'⟩ := List.cons.inj heq
    obtain ⟨-, hgap⟩ := List.forall_mem_cons.1 hgap
    rcases List.append_eq_append_iff.1 heq' with ⟨a, rfl, ha⟩ | ⟨a, ha, ha'⟩
    · obtain ⟨hblank, hgap'⟩ := List.forall_mem_append.1 hgap
      cases a with
      | nil => exact hcs (List.cons.inj ha).1
      | cons e a =>
        obtain ⟨-, hgap'⟩ := List.forall_mem_cons.1 hgap'
        exact parse_rest_ne hspace hsettings hgap' hblank hseparator (List.cons.inj ha).2 hrest
    · cases a with
      | nil => exact hcs (List.cons.inj ha').1.symm
      | cons e a =>
        refine hfree (mem_of_append_cons_eq (List.cons.inj ha').2.symm ?_)
        rw [ha, List.length_append, List.length_cons]
        omega

theorem IsGlue.skips {glue : List Char} (h : IsGlue isSpace glue)
    (hhead : ∀ c ∈ string.head?, isSpace c = false)
    (hapart : Blank isSpace glue → ∀ c ∈ string.head?, isSeparator c = false) :
    Skips isSpace string glue := by
  cases h with
  | blank hne hglue => exact .blank hglue hhead (hapart hglue)
  | separator hbefore hseparator hafter => exact .separator hbefore hseparator hafter hhead

theorem head_text_separator (hname : ∀ c ∈ setting.name.head?, isSeparator c = false) :
    ∀ c ∈ (setting.text ++ string).head?, isSeparator c = false := by
  obtain ⟨sign, text, htext, hsign⟩ := signed_eq_cons setting
  intro c hc
  rw [Setting.text, htext] at hc
  cases hname' : setting.name with
  | nil =>
    rw [hname'] at hc
    obtain rfl : sign = c := by simpa using hc
    exact not_separator_of_sign hsign
  | cons d name =>
    rw [hname'] at hc hname
    exact hname c (by simpa using hc)

/-- A separator at the front of a name is skipped. -/
theorem parse_ne_of_not_apart (hspace : IsUnicharIsspace isSpace) {s : List Char × Setting}
    (hapart : ¬ IsApart isSpace s) {l : List (List Char × List Char)} :
    (parse isSpace (skipSeparator isSpace false (s.1 ++ (s.2.text ++ string)))).1 ≠
      (s.2.name, value) :: l := by
  obtain ⟨hblank, c, hc, hseparator⟩ :
      Blank isSpace s.1 ∧ ∃ c ∈ s.2.name.head?, isSeparator c = true := by
    unfold IsApart at hapart
    push Not at hapart
    simpa using hapart
  obtain ⟨sign, text, htext, hsign⟩ := signed_eq_cons s.2
  cases hname : s.2.name with
  | nil => simp [hname] at hc
  | cons d name =>
    obtain rfl : d = c := by simpa [hname] using hc
    have hskip : skipSeparator isSpace false (s.1 ++ (s.2.text ++ string)) =
        skipSpace isSpace name ++ sign :: (text ++ string) := by
      rw [skipSeparator_blank hspace hblank, Setting.text, hname, htext, List.append_assoc,
        List.cons_append, skipSeparator_separator hseparator, List.cons_append,
        skipSpace_sign hspace hsign]
    have hle : (skipSpace isSpace name).length ≤ name.length :=
      List.length_dropWhile_le isSpace name
    rw [hskip]
    exact parse_ne_of_sign hspace hsign (Nat.lt_succ_of_le hle)

/-- Settings are read as they were written if each of them is, and if no name begins with what can
be taken for the separator before it. -/
theorem parse_text (hspace : IsUnicharIsspace isSpace) (hwritable : setting.Writable isSpace)
    (hsettings : ∀ s ∈ settings, IsGlue isSpace s.1 ∧ s.2.Writable isSpace) :
    (parse isSpace (setting.text ++ joined settings)).1 =
        (setting.name, setting.value) :: pairs settings ↔
      setting.Readable isSpace ∧ ∀ s ∈ settings, s.2.Readable isSpace ∧ IsApart isSpace s := by
  induction settings generalizing setting with
  | nil =>
    by_cases hreadable : setting.Readable isSpace
    · have hread := readOne_text hspace hwritable hreadable (head_joined (List.forall_mem_nil _))
      rw [parse_of_set hread]
      simp [joined, pairs, hreadable, skipSeparator, parse_blank blank_nil]
    · simp [hreadable, parse_text_ne hspace hwritable hsettings hreadable]
  | cons s settings ih =>
    by_cases hreadable : setting.Readable isSpace
    · have hread := readOne_text hspace hwritable hreadable
        (head_joined fun s hs => (hsettings s hs).1)
      obtain ⟨⟨hglue, hwritable'⟩, hsettings'⟩ := List.forall_mem_cons.1 hsettings
      have hjoined : joined (s :: settings) = s.1 ++ (s.2.text ++ joined settings) := by
        simp [joined]
      have hpairs : pairs (s :: settings) = (s.2.name, s.2.value) :: pairs settings := rfl
      rw [parse_of_set hread, List.forall_mem_cons]
      simp only [List.cons.injEq, true_and, hreadable]
      rw [hjoined, hpairs]
      by_cases hapart : IsApart isSpace s
      · have hskips := hglue.skips (head_text hspace hwritable'.strip (joined settings))
          fun hblank => head_text_separator (hapart hblank)
        rw [hskips.skipSeparator hspace, ih hwritable' hsettings']
        simp [hapart]
      · simp [hapart, parse_ne_of_not_apart hspace hapart]
    · simp [hreadable, parse_text_ne hspace hwritable hsettings hreadable]

/-- Settings are read as they were written, in every list of settings. -/
theorem parse_write (hspace : IsUnicharIsspace isSpace)
    (hsettings : ∀ s ∈ settings, IsGlue isSpace s.1 ∧ s.2.Writable isSpace) :
    (parse isSpace (write settings)).1 = pairs settings ↔
      (∀ s ∈ settings, s.2.Readable isSpace) ∧ ∀ s ∈ settings.tail, IsApart isSpace s := by
  cases settings with
  | nil => simp [write, pairs, parse_blank blank_nil]
  | cons s settings =>
    obtain ⟨⟨-, hwritable⟩, hsettings'⟩ := List.forall_mem_cons.1 hsettings
    have hpairs : pairs (s :: settings) = (s.2.name, s.2.value) :: pairs settings := rfl
    rw [write, hpairs, parse_text hspace hwritable hsettings', List.forall_mem_cons,
      List.tail_cons, and_assoc, forall₂_and]

/-! ## Texts that are joined -/

def Accepted (isSpace : Char → Bool) (string : List Char) : Prop :=
  (parse isSpace string).2 = .done

/-- A separator, and perhaps white space, is behind the last setting. -/
def EndsSeparated (isSpace : Char → Bool) (string : List Char) : Prop :=
  ∃ (before after : List Char) (separator : Char), string = before ++ separator :: after ∧
    isSeparator separator = true ∧ Blank isSpace after ∧ Accepted isSpace before

variable {a b : List Char}

/-- A setting has a sign. -/
theorem exists_sign (h : readOne isSpace string = .set name value rest) :
    ∃ c ∈ string, isSign c = true := by
  obtain ⟨lead, gap, text, rfl, -, -, -, hvalue⟩ := exists_of_readOne h
  cases hvalue with
  | colon => exact ⟨':', by simp, rfl⟩
  | assign => exact ⟨'=', by simp, rfl⟩

/-- A separator alone is not accepted. -/
theorem not_accepted_separator (hspace : IsUnicharIsspace isSpace) {before after : List Char}
    {separator : Char} (hbefore : Blank isSpace before) (hseparator : isSeparator separator = true)
    (hafter : Blank isSpace after) : ¬ Accepted isSpace (before ++ separator :: after) := by
  intro h
  cases hread : readOne isSpace (before ++ separator :: after) with
  | stop how =>
    rw [Accepted, parse_of_stop hread] at h
    subst h
    have hblank := readOne_eq_done.1 hread separator (by simp)
    simp [hspace.separator separator hseparator] at hblank
  | set name value rest =>
    obtain ⟨c, hc, hsign⟩ := exists_sign hread
    have hnot := hspace.sign c hsign
    rcases List.mem_append.1 hc with hc | hc
    · simp [hbefore c hc] at hnot
    · rcases List.mem_cons.1 hc with rfl | hc
      · simp [not_separator_of_sign hsign] at hseparator
      · simp [hafter c hc] at hnot

theorem readOne_append (hspace : IsUnicharIsspace isSpace)
    (h : readOne isSpace string = .set name value rest) {separator : Char}
    (hseparator : isSeparator separator = true) (x : List Char) :
    readOne isSpace (string ++ separator :: x) = .set name value (rest ++ separator :: x) := by
  obtain ⟨pre, -, rfl, hpre⟩ := readOne_append_of hspace h
  rw [List.append_assoc]
  refine hpre _ fun c hc => ?_
  cases rest with
  | nil =>
    obtain rfl : separator = c := by simpa using hc
    exact .inr (by simp [endsValue, hseparator])
  | cons d rest => exact .inl hc

/-- What is accepted and not blank begins with a setting. -/
theorem Accepted.exists_set (h : Accepted isSpace string) (hblank : ¬ Blank isSpace string) :
    ∃ name value rest, readOne isSpace string = .set name value rest ∧
      Accepted isSpace (skipSeparator isSpace false rest) := by
  cases hread : readOne isSpace string with
  | stop how =>
    rw [Accepted, parse_of_stop hread] at h
    subst h
    exact absurd (readOne_eq_done.1 hread) hblank
  | set name value rest =>
    rw [Accepted, parse_of_set hread] at h
    exact ⟨name, value, rest, rfl, h⟩

/-- Whether the last setting has a separator behind it is seen behind the first one. -/
theorem endsSeparated_iff (hspace : IsUnicharIsspace isSpace)
    (hread : readOne isSpace string = .set name value rest)
    (haccepted : Accepted isSpace (skipSeparator isSpace false rest)) :
    EndsSeparated isSpace string ↔
      if skipSeparator isSpace false rest = [] then ¬ Blank isSpace rest
      else EndsSeparated isSpace (skipSeparator isSpace false rest) := by
  obtain ⟨skipped, hrest, hskips⟩ := exists_skips hspace rest
  obtain ⟨pre, -, hstring, hpre⟩ := readOne_append_of hspace hread
  set p := skipSeparator isSpace false rest
  constructor
  · rintro ⟨before, after, separator, heq, hseparator, hafter, hbefore⟩
    have hnot : ¬ Blank isSpace before := by
      intro hblank
      refine not_accepted_separator hspace hblank hseparator hafter ?_
      rw [Accepted, ← heq, parse_of_set hread]
      exact haccepted
    obtain ⟨name', value', rest', hread', haccepted'⟩ := hbefore.exists_set hnot
    have happend := readOne_append hspace hread' hseparator after
    rw [← heq, hread] at happend
    obtain ⟨rfl, rfl, rfl⟩ := Round.set.inj happend
    obtain ⟨skipped', hrest', hskips'⟩ := exists_skips hspace rest'
    by_cases hp' : skipSeparator isSpace false rest' = []
    · rw [hp', List.append_nil] at hrest'
      rw [hp'] at hskips'
      subst hrest'
      cases hskips' with
      | blank hgap _ _ =>
        have hp : p = [] := by
          rw [show p = skipSeparator isSpace false (rest' ++ separator :: after) from rfl,
            skipSeparator_blank hspace hgap, skipSeparator_separator hseparator]
          exact skipSpace_eq_nil.2 hafter
        rw [if_pos hp]
        intro hblank
        have hsep := hblank separator (by simp)
        simp [hspace.separator separator hseparator] at hsep
      | separator hbefore' hseparator' hafter' _ =>
        have hp : p = separator :: after := by
          rw [show p = skipSeparator isSpace false (_ ++ separator :: after) from rfl,
            List.append_assoc, skipSeparator_blank hspace hbefore', List.cons_append,
            skipSeparator_separator hseparator', skipSpace_append hafter', skipSpace_eq_self]
          simpa using hspace.separator separator hseparator
        rw [hp] at haccepted
        exact absurd haccepted (not_accepted_separator hspace blank_nil hseparator hafter)
    · have hp : p = skipSeparator isSpace false rest' ++ separator :: after := by
        have hskips'' : Skips isSpace (skipSeparator isSpace false rest' ++ separator :: after)
            skipped' := hskips'.append fun h => absurd h hp'
        rw [← hskips''.skipSeparator hspace, ← List.append_assoc, ← hrest']
      rw [if_neg (by simp [hp])]
      exact ⟨_, after, separator, hp, hseparator, hafter, haccepted'⟩
  · intro h
    split_ifs at h with hp
    · rw [hp] at hskips hrest
      rw [List.append_nil] at hrest
      subst hrest
      cases hskips with
      | blank hgap _ _ => exact absurd hgap h
      | @separator before after separator hbefore hseparator hafter _ =>
        have hpre' : readOne isSpace (pre ++ before) = .set name value before := by
          refine hpre before fun c hc => .inr ?_
          rw [endsValue, hbefore c (List.mem_of_mem_head? hc), Bool.true_or]
        have hend : skipSeparator isSpace false before = [] := by
          have hskip := skipSeparator_blank hspace hbefore []
          rwa [List.append_nil] at hskip
        refine ⟨pre ++ before, after, separator, by rw [hstring, List.append_assoc], hseparator,
          hafter, ?_⟩
        rw [Accepted, parse_of_set hpre', hend, parse_blank blank_nil]
    · obtain ⟨before, after, separator, heq, hseparator, hafter, hbefore⟩ := h
      rw [heq] at hskips hrest
      have hpre' : readOne isSpace (pre ++ (skipped ++ before)) =
          .set name value (skipped ++ before) := by
        refine hpre _ fun c hc => .inl ?_
        rw [hrest, ← List.append_assoc, List.head?_append, hc]
        rfl
      refine ⟨pre ++ (skipped ++ before), after, separator, ?_, hseparator, hafter, ?_⟩
      · rw [hstring, hrest]
        simp
      · rw [Accepted, parse_of_set hpre', hskips.of_append.skipSeparator hspace]
        exact hbefore

/-- How an accepted text goes on behind a separator. -/
theorem parse_append (hspace : IsUnicharIsspace isSpace) (ha : Accepted isSpace a)
    (hblank : ¬ Blank isSpace a) {separator : Char} (hseparator : isSeparator separator = true)
    (b : List Char) :
    (EndsSeparated isSpace a → (parse isSpace (a ++ separator :: b)).1 =
        (parse isSpace a).1 ++ (parse isSpace (separator :: b)).1) ∧
      (¬ EndsSeparated isSpace a → (parse isSpace (a ++ separator :: b)).1 =
        (parse isSpace a).1 ++ (parse isSpace b).1) := by
  induction hn : a.length using Nat.strong_induction_on generalizing a with
  | _ n ih =>
    obtain ⟨name, value, rest, hread, haccepted⟩ := ha.exists_set hblank
    obtain ⟨skipped, hrest, hskips⟩ := exists_skips hspace rest
    have hlength := length_rest_lt hread
    have hle := length_skipSeparator_le isSpace false rest
    rw [endsSeparated_iff hspace hread haccepted, parse_of_set hread,
      parse_of_set (readOne_append hspace hread hseparator b)]
    simp only [List.cons_append, List.cons.injEq, true_and]
    by_cases hp : skipSeparator isSpace false rest = []
    · rw [hp, List.append_nil] at hrest
      rw [hp] at hskips
      subst hrest
      rw [if_pos hp, hp, parse_blank blank_nil, List.nil_append, List.nil_append]
      cases hskips with
      | blank hgap _ _ =>
        refine ⟨fun h => absurd hgap h, fun _ => ?_⟩
        rw [skipSeparator_blank hspace hgap, skipSeparator_separator hseparator, parse_skipSpace]
      | separator hbefore hseparator' hafter _ =>
        refine ⟨fun _ => ?_, fun h => absurd (fun hblank' => ?_) h⟩
        · rw [List.append_assoc, skipSeparator_blank hspace hbefore,
            List.cons_append, skipSeparator_separator hseparator', skipSpace_append hafter,
            skipSpace_eq_self.2 (by simpa using hspace.separator separator hseparator)]
        · have hsep := hblank' _ (List.mem_append_right _ List.mem_cons_self)
          rw [hspace.separator _ hseparator'] at hsep
          cases hsep
    · have happend : skipSeparator isSpace false (rest ++ separator :: b) =
          skipSeparator isSpace false rest ++ separator :: b := by
        have hskips' : Skips isSpace (skipSeparator isSpace false rest ++ separator :: b) skipped :=
          hskips.append fun h => absurd h hp
        rw [← hskips'.skipSeparator hspace, ← List.append_assoc, ← hrest]
      rw [if_neg hp, happend]
      exact ih _ (by omega) haccepted (hskips.not_blank hp) rfl

/-- A separator before a text becomes a part of the first name. -/
theorem parse_separator_cons (hspace : IsUnicharIsspace isSpace) (hb : Accepted isSpace b)
    {separator : Char} (hseparator : isSeparator separator = true) :
    (parse isSpace (separator :: b)).1 = (parse isSpace b).1 ↔ Blank isSpace b := by
  constructor
  · intro h
    by_contra hblank
    obtain ⟨name, value, rest, hread, -⟩ := hb.exists_set hblank
    rw [parse_of_set hread] at h
    obtain ⟨lead, gap, text, rfl, hlead, hname, hgap, hvalue⟩ := exists_of_readOne hread
    have hname' : IsName isSpace (separator :: (lead ++ name)) := by
      refine ⟨by simp, fun c hc => ?_, strip_eq_self.2 ⟨skipSpace_eq_self.2 ?_, ?_⟩⟩
      · by_contra hsign
        have hsign : isSign c = true := by simpa using hsign
        have hnot := hspace.sign c hsign
        rcases List.mem_cons.1 hc with rfl | hc
        · simp [not_separator_of_sign hsign] at hseparator
        · rcases List.mem_append.1 hc with hc | hc
          · simp [hlead c hc] at hnot
          · simp [hname.no_sign c hc] at hsign
      · simpa using hspace.separator separator hseparator
      · have hlast := List.rdropWhile_eq_self_iff.1 (strip_eq_self.1 hname.strip).2 hname.ne_nil
        rw [List.rdropWhile_eq_self_iff]
        intro hne
        rwa [List.getLast_cons (by simp [hname.ne_nil]),
          List.getLast_append_of_ne_nil _ hname.ne_nil]
    have hread' := readOne_setting hspace blank_nil hname' hgap hvalue
    have heq : [] ++ (separator :: (lead ++ name) ++ (gap ++ (text ++ rest))) =
        separator :: (lead ++ (name ++ (gap ++ (text ++ rest)))) := by simp
    rw [heq] at hread'
    rw [parse_of_set hread'] at h
    have hlength := congrArg List.length (congrArg Prod.fst (List.cons.inj h).1)
    simp at hlength
    omega
  · intro hblank
    rw [parse_blank hblank]
    cases hread : readOne isSpace (separator :: b) with
    | stop how => rw [parse_of_stop hread]
    | set name value rest =>
      obtain ⟨c, hc, hsign⟩ := exists_sign hread
      rcases List.mem_cons.1 hc with rfl | hc
      · simp [not_separator_of_sign hsign] at hseparator
      · have hnot := hspace.sign c hsign
        simp [hblank c hc] at hnot

/-- Two accepted texts that are joined. -/
theorem parse_join (hspace : IsUnicharIsspace isSpace) (ha : Accepted isSpace a)
    (hb : Accepted isSpace b) {separator : Char} (hseparator : isSeparator separator = true) :
    (parse isSpace (a ++ separator :: b)).1 = (parse isSpace a).1 ++ (parse isSpace b).1 ↔
      Blank isSpace b ∨ ¬ Blank isSpace a ∧ ¬ EndsSeparated isSpace a := by
  by_cases hblank : Blank isSpace a
  · have hskip : skipSpace isSpace (a ++ separator :: b) = separator :: b := by
      rw [skipSpace_append hblank, skipSpace_eq_self]
      simpa using hspace.separator separator hseparator
    rw [← parse_skipSpace, hskip, parse_blank hblank, List.nil_append,
      parse_separator_cons hspace hb hseparator]
    simp [hblank]
  · obtain ⟨hsep, hnot⟩ := parse_append hspace ha hblank hseparator b
    by_cases hends : EndsSeparated isSpace a
    · rw [hsep hends, List.append_cancel_left_eq, parse_separator_cons hspace hb hseparator]
      simp [hends]
    · simp [hnot hends, hblank, hends]

/-! ## The end of a text -/

/-- What the loop comes to in a text. -/
inductive Reached (isSpace : Char → Bool) (string : List Char) : List Char → Prop
  | start : Reached isSpace string string
  | next {p name value rest : List Char} (hp : Reached isSpace string p)
    (hread : readOne isSpace p = .set name value rest) :
    Reached isSpace string (skipSeparator isSpace false rest)

/-- A name with `=` and one character. -/
def Dangling (isSpace : Char → Bool) (string : List Char) : Prop :=
  ∃ (lead name gap gap' : List Char) (separator : Char),
    string = lead ++ (name ++ (gap ++ '=' :: (gap' ++ [separator]))) ∧ Blank isSpace lead ∧
      IsName isSpace name ∧ Blank isSpace gap ∧ Blank isSpace gap' ∧ isSpace separator = false

theorem readOne_eq_pastEnd (hspace : IsUnicharIsspace isSpace) :
    readOne isSpace string = .stop .pastEnd ↔ Dangling isSpace string := by
  constructor
  · intro h
    rcases readOne_cases isSpace string with ⟨-, hstop⟩ | ⟨-, hstop⟩ |
      ⟨-, lead, name, gap, sign, text, rfl, hlead, hname, hgap, ⟨rfl, hread⟩ | ⟨rfl, hread⟩⟩
    · simp [hstop] at h
    · simp [hstop] at h
    · exact absurd (hread.symm.trans h) (colonValue_ne_pastEnd name text)
    · obtain ⟨gap', separator, rfl, hgap', hseparator⟩ :=
        assignValue_eq_pastEnd.1 (hread.symm.trans h)
      exact ⟨lead, name, gap, gap', separator, rfl, hlead, hname, hgap, hgap', hseparator⟩
  · rintro ⟨lead, name, gap, gap', separator, rfl, hlead, hname, hgap, hgap', hseparator⟩
    rw [readOne_name hspace hlead hname hgap rfl, if_neg (by decide)]
    exact assignValue_eq_pastEnd.2 ⟨gap', separator, rfl, hgap', hseparator⟩

theorem Reached.of_next (hread : readOne isSpace string = .set name value rest) {p : List Char}
    (h : Reached isSpace (skipSeparator isSpace false rest) p) : Reached isSpace string p := by
  induction h with
  | start => exact .next .start hread
  | next _ hread' ih => exact .next ih hread'

theorem Reached.cases_start {p : List Char} (h : Reached isSpace string p) :
    p = string ∨ ∃ name value rest, readOne isSpace string = .set name value rest ∧
      Reached isSpace (skipSeparator isSpace false rest) p := by
  induction h with
  | start => exact .inl rfl
  | next _ hread ih =>
    rcases ih with rfl | ⟨name, value, rest, hread', hp⟩
    · exact .inr ⟨_, _, _, hread, .start⟩
    · exact .inr ⟨name, value, rest, hread', .next hp hread⟩

/-- A character is read behind the end only if the loop comes to a dangling `=`. -/
theorem parse_eq_pastEnd (hspace : IsUnicharIsspace isSpace) :
    (parse isSpace string).2 = .pastEnd ↔ ∃ p, Reached isSpace string p ∧ Dangling isSpace p := by
  induction hn : string.length using Nat.strong_induction_on generalizing string with
  | _ n ih =>
    cases hread : readOne isSpace string with
    | stop how =>
      rw [parse_of_stop hread]
      constructor
      · rintro rfl
        exact ⟨string, .start, (readOne_eq_pastEnd hspace).1 hread⟩
      · rintro ⟨p, hp, hdangling⟩
        rcases hp.cases_start with rfl | ⟨_, _, _, hread', -⟩
        · have hpast := (readOne_eq_pastEnd hspace).2 hdangling
          rw [hread] at hpast
          exact Round.stop.inj hpast
        · simp [hread] at hread'
    | set name value rest =>
      have hlength := length_rest_lt hread
      have hle := length_skipSeparator_le isSpace false rest
      rw [parse_of_set hread, ih _ (by omega) rfl]
      constructor
      · rintro ⟨p, hp, hdangling⟩
        exact ⟨p, hp.of_next hread, hdangling⟩
      · rintro ⟨p, hp, hdangling⟩
        rcases hp.cases_start with rfl | ⟨_, _, _, hread', hp⟩
        · have hpast := (readOne_eq_pastEnd hspace).2 hdangling
          simp [hread] at hpast
        · rw [hread] at hread'
          obtain ⟨rfl, rfl, rfl⟩ := Round.set.inj hread'
          exact ⟨p, hp, hdangling⟩

/-! ## Settings of a document -/

/-- `moo_edit_config_parse`, of a document. -/
def mooEditConfigParse {V : Type*} [DecidableEq V] (isSpace : Char → Bool) (c : EditConfigs V)
    (d : ℕ) (string : List Char) (source : MooEditConfigSource) : EditConfigs V :=
  (parse isSpace string).1.foldl (fun c (name, value) => c.parseOne d name value source) c

/-- Settings of two filters, as they are put together for a document. -/
theorem mooEditConfigParse_join {V : Type*} [DecidableEq V] (hspace : IsUnicharIsspace isSpace)
    (ha : Accepted isSpace a) (hb : Accepted isSpace b)
    (h : Blank isSpace b ∨ ¬ Blank isSpace a ∧ ¬ EndsSeparated isSpace a) (c : EditConfigs V)
    (d : ℕ) (source : MooEditConfigSource) :
    mooEditConfigParse isSpace c d (a ++ ';' :: b) source =
      mooEditConfigParse isSpace (mooEditConfigParse isSpace c d a source) d b source := by
  rw [mooEditConfigParse, (parse_join hspace ha hb rfl).2 h, List.foldl_append]
  rfl

/-- Settings are read as they were written if no name and no value is empty, no value stands between
white space, and no name can begin with a separator that is skipped; two texts are read one after
the other if the first has a setting with no separator behind it; and no character is read behind
the end if no `=` with one more character ends the text. -/
theorem parse_iff (hspace : IsUnicharIsspace isSpace) :
    (∀ settings : List (List Char × Setting),
      (∀ s ∈ settings, IsGlue isSpace s.1 ∧ s.2.Writable isSpace) →
        ((parse isSpace (write settings)).1 = pairs settings ↔
          (∀ s ∈ settings, s.2.Readable isSpace) ∧ ∀ s ∈ settings.tail, IsApart isSpace s)) ∧
      (∀ a b : List Char, Accepted isSpace a → Accepted isSpace b →
        ((parse isSpace (a ++ ';' :: b)).1 = (parse isSpace a).1 ++ (parse isSpace b).1 ↔
          Blank isSpace b ∨ ¬ Blank isSpace a ∧ ¬ EndsSeparated isSpace a)) ∧
      ∀ string : List Char, (parse isSpace string).2 ≠ .pastEnd ↔
        ∀ p, Reached isSpace string p → ¬ Dangling isSpace p := by
  refine ⟨fun settings hsettings => parse_write hspace hsettings,
    fun a b ha hb => parse_join hspace ha hb rfl, fun string => ?_⟩
  rw [ne_eq, parse_eq_pastEnd hspace]
  push Not
  rfl

theorem parse_iff_blank :
    (parse (· == ' ') (write [([' '], ⟨['a'], ['b'], none⟩)])).1 =
        pairs [([' '], ⟨['a'], ['b'], none⟩)] ↔
      (∀ s ∈ [([' '], (⟨['a'], ['b'], none⟩ : Setting))], s.2.Readable (· == ' ')) ∧
        ∀ s ∈ [([' '], (⟨['a'], ['b'], none⟩ : Setting))].tail, IsApart (· == ' ') s := by
  have hspace : IsUnicharIsspace (· == ' ') := by
    refine ⟨rfl, fun c hc => ?_, fun c hc => ?_⟩
    · rcases (by simpa [isSign] using hc : c = ':' ∨ c = '=') with rfl | rfl <;> rfl
    · rcases (by simpa [isSeparator] using hc : c = ',' ∨ c = ';') with rfl | rfl <;> rfl
  refine (parse_iff hspace).1 _ fun s hs => ?_
  obtain rfl := List.mem_singleton.1 hs
  exact ⟨.blank (by simp) (by simp [Blank]), by simp [isSign], rfl,
    by simp [endsValue, isSeparator]⟩

/-- An empty value is not read, and a value that begins at the end of the text is looked for behind
it. -/
theorem parse_quotes :
    (parse (· == ' ') (write [([' '], ⟨['a'], [], some '/'⟩)])).1 ≠
        pairs [([' '], ⟨['a'], [], some '/'⟩)] ∧
      (parse (· == ' ') "a=x".toList).2 = .pastEnd := by
  have hempty : readOne (· == ' ') (write [([' '], ⟨['a'], [], some '/'⟩)]) =
      .stop .unterminated := by decide
  have hend : readOne (· == ' ') "a=x".toList = .stop .pastEnd := by decide
  rw [parse_of_stop hempty, parse_of_stop hend]
  exact ⟨by decide, rfl⟩

end Medit.ConfigText
