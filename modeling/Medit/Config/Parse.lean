import Medit.Library.Words

/-!
# Settings in a text

Translation of `moo_edit_config_parse` from `mooedit/mooeditconfig.cpp`, which reads settings from
mode lines and from the preferences. Texts are UTF-8, and what is white space to GLib is a
parameter. The loop over a value steps to the second byte of its first character, but no later byte
of a character is a white space or a separator.

## Main definitions

* `readOne`, `parse` — one setting of a text, and all of them.
* `IsName`, `IsValue` — what a setting is in a text.

## Main results

* `exists_of_readOne`, `readOne_setting` — what is read is a setting, and a setting is read.
* `exists_skips`, `Skips.skipSeparator` — what is skipped between two settings.
-/

namespace Medit.ConfigText

open Words

/-- How the loop ends. -/
inductive End
  | done
  | invalid
  | unterminated
  | pastEnd
deriving DecidableEq

/-- What a round of the loop does: it sets something and goes on, or it ends the loop. -/
inductive Round
  | set (name value rest : List Char)
  | stop (how : End)
deriving DecidableEq

/-- What can stand between two settings. -/
def isSeparator (c : Char) : Bool := c == ',' || c == ';'

/-- The first of these ends a name. -/
def isSign (c : Char) : Bool := c == ':' || c == '='

section Model

variable (isSpace : Char → Bool)

/-- `skip_space` -/
def skipSpace (string : List Char) : List Char := string.dropWhile isSpace

/-- `skip_separator` -/
def skipSeparator (seenSeparator : Bool) : List Char → List Char
  | [] => []
  | c :: string =>
    if ¬ seenSeparator ∧ isSeparator c then
      match string with
      | [] => []
      | d :: string => if isSpace d then skipSeparator true string else d :: string
    else if isSpace c then skipSeparator seenSeparator string
    else c :: string

attribute [elab_as_elim] skipSeparator.induct_unfolding

/-- The end of a value that no separator is around. -/
def endsValue (c : Char) : Bool := isSpace c || isSeparator c

/-- The value behind a colon. -/
def colonValue (name string : List Char) : Round :=
  match skipSpace isSpace string with
  | [] => .stop .invalid
  | c :: string =>
    if isSeparator c then .stop .invalid
    else
      .set name (c :: string.takeWhile (! endsValue isSpace ·))
        (string.dropWhile (! endsValue isSpace ·))

/-- The value behind `=`. The second character is the first one that the end of the value is looked
for at. -/
def assignValue (name string : List Char) : Round :=
  match skipSpace isSpace string with
  | [] => .stop .invalid
  | [_] => .stop .pastEnd
  | separator :: c :: string =>
    match string.dropWhile (· ≠ separator) with
    | [] => .stop .unterminated
    | _ :: rest => .set name (c :: string.takeWhile (· ≠ separator)) rest

/-- A round of the loop in `moo_edit_config_parse`, up to the end of the value. -/
def readOne (string : List Char) : Round :=
  let p := skipSpace isSpace string
  if p = [] then .stop .done
  else
    let name := (p.takeWhile (! isSign ·)).rdropWhile isSpace
    match p.dropWhile (! isSign ·) with
    | [] => .stop .invalid
    | c :: string =>
      if name = [] then .stop .invalid
      else if c = ':' then colonValue isSpace name string
      else assignValue isSpace name string

end Model

variable {isSpace : Char → Bool} {string name value rest : List Char}

/-! ## What a round reads -/

/-- Nothing but white space. -/
def Blank (isSpace : Char → Bool) (string : List Char) : Prop := ∀ c ∈ string, isSpace c = true

theorem blank_nil : Blank isSpace [] := nofun

/-- A name as it can be read. -/
structure IsName (isSpace : Char → Bool) (name : List Char) : Prop where
  ne_nil : name ≠ []
  no_sign : ∀ c ∈ name, isSign c = false
  strip : strip isSpace name = name

/-- A value with its sign, and with `rest` behind it. -/
inductive IsValue (isSpace : Char → Bool) (value rest : List Char) : List Char → Prop
  | colon {gap : List Char} (hgap : Blank isSpace gap) (hne : value ≠ [])
    (hvalue : ∀ c ∈ value, endsValue isSpace c = false)
    (hrest : ∀ c ∈ rest.head?, endsValue isSpace c = true) :
    IsValue isSpace value rest (':' :: (gap ++ value))
  | assign {gap : List Char} {separator : Char} (hgap : Blank isSpace gap) (hne : value ≠ [])
    (hseparator : isSpace separator = false) (hvalue : separator ∉ value.tail) :
    IsValue isSpace value rest ('=' :: (gap ++ separator :: (value ++ [separator])))

theorem skipSpace_append {lead : List Char} (hlead : Blank isSpace lead) (string : List Char) :
    skipSpace isSpace (lead ++ string) = skipSpace isSpace string :=
  List.dropWhile_append_of_pos hlead

theorem skipSpace_eq_self : skipSpace isSpace string = string ↔
    ∀ c ∈ string.head?, isSpace c = false := by
  cases string with
  | nil => simp [skipSpace]
  | cons c string =>
    rw [skipSpace, List.dropWhile_eq_self_iff]
    simp

/-- What is skipped, and what is not. -/
theorem exists_skipSpace (isSpace : Char → Bool) (string : List Char) :
    ∃ lead, string = lead ++ skipSpace isSpace string ∧ Blank isSpace lead ∧
      ∀ c ∈ (skipSpace isSpace string).head?, isSpace c = false := by
  refine ⟨string.takeWhile isSpace, List.takeWhile_append_dropWhile.symm,
    fun c hc => List.mem_takeWhile_imp hc, ?_⟩
  have hhead := List.head?_dropWhile_not isSpace string
  rw [skipSpace]
  intro c hc
  rw [hc] at hhead
  simpa using hhead

theorem skipSpace_eq_nil : skipSpace isSpace string = [] ↔ Blank isSpace string :=
  List.dropWhile_eq_nil_iff

theorem colonValue_eq_set {name' : List Char} :
    colonValue isSpace name' string = .set name value rest ↔ name = name' ∧
      ∃ gap, string = gap ++ (value ++ rest) ∧ Blank isSpace gap ∧ value ≠ [] ∧
        (∀ c ∈ value, endsValue isSpace c = false) ∧
        ∀ c ∈ rest.head?, endsValue isSpace c = true := by
  constructor
  · intro h
    obtain ⟨gap, hstring, hgap, hhead⟩ := exists_skipSpace isSpace string
    unfold colonValue at h
    cases hskip : skipSpace isSpace string with
    | nil => simp [hskip] at h
    | cons c cs =>
      rw [hskip] at h hstring hhead
      simp only at h
      split_ifs at h with hc
      obtain ⟨rfl, rfl, rfl⟩ := h
      have hends : endsValue isSpace c = false := by
        have hspace : isSpace c = false := hhead c rfl
        simp [endsValue, hspace, hc]
      refine ⟨rfl, gap, by simp [hstring], hgap, by simp, ?_, ?_⟩
      · refine List.forall_mem_cons.2 ⟨hends, fun d hd => ?_⟩
        simpa using List.mem_takeWhile_imp hd
      · intro d hd
        have hnot := List.head?_dropWhile_not (! endsValue isSpace ·) cs
        rw [hd] at hnot
        simpa using hnot
  · rintro ⟨rfl, gap, rfl, hgap, hne, hvalue, hrest⟩
    obtain ⟨c, cs, rfl⟩ := List.exists_cons_of_ne_nil hne
    obtain ⟨hc, hcs⟩ := List.forall_mem_cons.1 hvalue
    have hspace : isSpace c = false ∧ isSeparator c = false := by
      simpa [endsValue] using hc
    have hskip : skipSpace isSpace (gap ++ (c :: cs ++ rest)) = c :: (cs ++ rest) := by
      rw [skipSpace_append hgap]
      exact skipSpace_eq_self.2 (by simp [hspace.1])
    have htake : ∀ d ∈ cs, (! endsValue isSpace d) = true := by simpa using hcs
    have hstop : rest.takeWhile (! endsValue isSpace ·) = [] ∧
        rest.dropWhile (! endsValue isSpace ·) = rest := by
      cases rest with
      | nil => exact ⟨rfl, rfl⟩
      | cons d rest =>
        have hd : endsValue isSpace d = true := hrest d rfl
        simp [hd]
    rw [colonValue, hskip]
    simp only [hspace.2, Bool.false_eq_true, if_false]
    rw [List.takeWhile_append_of_pos htake, List.dropWhile_append_of_pos htake, hstop.1, hstop.2,
      List.append_nil]

theorem assignValue_eq_set {name' : List Char} :
    assignValue isSpace name' string = .set name value rest ↔ name = name' ∧
      ∃ gap separator, string = gap ++ separator :: (value ++ separator :: rest) ∧
        Blank isSpace gap ∧ value ≠ [] ∧ isSpace separator = false ∧ separator ∉ value.tail := by
  constructor
  · intro h
    obtain ⟨gap, hstring, hgap, hhead⟩ := exists_skipSpace isSpace string
    unfold assignValue at h
    match hskip : skipSpace isSpace string with
    | [] => simp [hskip] at h
    | [_] => simp [hskip] at h
    | separator :: c :: cs =>
      rw [hskip] at h hstring hhead
      simp only at h
      cases hdrop : cs.dropWhile (· ≠ separator) with
      | nil =>
        rw [hdrop] at h
        cases h
      | cons d ds =>
        rw [hdrop] at h
        obtain ⟨rfl, rfl, rfl⟩ := h
        have hd : d = separator := by
          have hnot := List.head?_dropWhile_not (· ≠ separator) cs
          rw [hdrop] at hnot
          simpa using hnot
        subst hd
        refine ⟨rfl, gap, d, ?_, hgap, by simp, hhead d rfl, fun hmem => ?_⟩
        · rw [hstring, List.cons_append, ← hdrop, List.takeWhile_append_dropWhile]
        · simpa using List.mem_takeWhile_imp hmem
  · rintro ⟨rfl, gap, separator, rfl, hgap, hne, hseparator, hvalue⟩
    obtain ⟨c, cs, rfl⟩ := List.exists_cons_of_ne_nil hne
    have hskip : skipSpace isSpace (gap ++ separator :: (c :: cs ++ separator :: rest)) =
        separator :: c :: (cs ++ separator :: rest) := by
      rw [skipSpace_append hgap]
      exact skipSpace_eq_self.2 (by simp [hseparator])
    have htake : ∀ d ∈ cs, decide (d ≠ separator) = true := by
      intro d hd
      simpa using fun heq : d = separator => hvalue (heq ▸ hd)
    rw [assignValue, hskip]
    simp only
    rw [List.takeWhile_append_of_pos htake, List.dropWhile_append_of_pos htake]
    simp

theorem colonValue_ne_done (name string : List Char) :
    colonValue isSpace name string ≠ .stop .done := by
  unfold colonValue
  split
  · simp
  · split <;> simp

theorem colonValue_ne_pastEnd (name string : List Char) :
    colonValue isSpace name string ≠ .stop .pastEnd := by
  unfold colonValue
  split
  · simp
  · split <;> simp

theorem assignValue_ne_done (name string : List Char) :
    assignValue isSpace name string ≠ .stop .done := by
  unfold assignValue
  split
  · simp
  · simp
  · split <;> simp

theorem assignValue_eq_pastEnd :
    assignValue isSpace name string = .stop .pastEnd ↔
      ∃ gap separator, string = gap ++ [separator] ∧ Blank isSpace gap ∧
        isSpace separator = false := by
  constructor
  · intro h
    obtain ⟨gap, hstring, hgap, hhead⟩ := exists_skipSpace isSpace string
    unfold assignValue at h
    match hskip : skipSpace isSpace string with
    | [] => simp [hskip] at h
    | [separator] =>
      rw [hskip] at hstring hhead
      exact ⟨gap, separator, hstring, hgap, hhead separator rfl⟩
    | separator :: c :: cs =>
      rw [hskip] at h
      simp only at h
      split at h <;> cases h
  · rintro ⟨gap, separator, rfl, hgap, hseparator⟩
    have hskip : skipSpace isSpace (gap ++ [separator]) = [separator] := by
      rw [skipSpace_append hgap, skipSpace_eq_self]
      simpa using hseparator
    rw [assignValue, hskip]

/-- A name in front of its sign. -/
theorem exists_name {before : List Char} (hhead : ∀ c ∈ before.head?, isSpace c = false)
    (hsign : ∀ c ∈ before, isSign c = false) (hne : before.rdropWhile isSpace ≠ []) :
    ∃ gap, before = before.rdropWhile isSpace ++ gap ∧ Blank isSpace gap ∧
      IsName isSpace (before.rdropWhile isSpace) := by
  have happend : before.rdropWhile isSpace ++ before.rtakeWhile isSpace = before :=
    List.rdropWhile_append_rtakeWhile
  refine ⟨before.rtakeWhile isSpace, happend.symm, fun c hc => List.mem_rtakeWhile_imp hc, hne,
    fun c hc => hsign c ((List.rdropWhile_prefix isSpace before).subset hc), strip_eq_self.2
      ⟨skipSpace_eq_self.2 fun c hc => hhead c ?_, List.rdropWhile_idempotent isSpace before⟩⟩
  rw [← happend, List.head?_append, hc]
  rfl

/-- A round that comes to a sign has a name in front of it. -/
theorem readOne_cases (isSpace : Char → Bool) (string : List Char) :
    Blank isSpace string ∧ readOne isSpace string = .stop .done ∨
      ¬ Blank isSpace string ∧ readOne isSpace string = .stop .invalid ∨
      ¬ Blank isSpace string ∧ ∃ (lead name gap : List Char) (sign : Char) (text : List Char),
        string = lead ++ (name ++ (gap ++ sign :: text)) ∧ Blank isSpace lead ∧
        IsName isSpace name ∧ Blank isSpace gap ∧
        (sign = ':' ∧ readOne isSpace string = colonValue isSpace name text ∨
          sign = '=' ∧ readOne isSpace string = assignValue isSpace name text) := by
  obtain ⟨lead, hstring, hlead, hhead⟩ := exists_skipSpace isSpace string
  rw [← skipSpace_eq_nil]
  unfold readOne
  set p := skipSpace isSpace string
  by_cases hnil : p = []
  · exact .inl ⟨hnil, if_pos hnil⟩
  refine .inr ?_
  simp only [hnil, not_false_eq_true, true_and, if_false]
  obtain ⟨before, hbefore⟩ : ∃ before, p.takeWhile (! isSign ·) = before := ⟨_, rfl⟩
  have hsplit := List.takeWhile_append_dropWhile (p := (! isSign ·)) (l := p)
  have hno : ∀ c ∈ before, isSign c = false := by
    intro c hc
    rw [← hbefore] at hc
    simpa using List.mem_takeWhile_imp hc
  cases hdrop : p.dropWhile (! isSign ·) with
  | nil => exact .inl rfl
  | cons sign after =>
    rw [hdrop, hbefore] at hsplit
    rw [hbefore]
    have hsign : sign = ':' ∨ sign = '=' := by
      have hnot := List.head?_dropWhile_not (! isSign ·) p
      rw [hdrop] at hnot
      have hyes : isSign sign = true := by simpa using hnot
      simpa [isSign] using hyes
    by_cases hname : before.rdropWhile isSpace = []
    · exact .inl (if_pos hname)
    obtain ⟨gap, hgap, hblank, hisName⟩ := exists_name (fun c hc => hhead c (by
      rw [← hsplit, List.head?_append, hc]
      rfl)) hno hname
    refine .inr ⟨lead, before.rdropWhile isSpace, gap, sign, after, ?_, hlead, hisName, hblank, ?_⟩
    · rw [← List.append_assoc (before.rdropWhile isSpace), ← hgap, hsplit, ← hstring]
    · rcases hsign with rfl | rfl
      · exact .inl ⟨rfl, by simp [hname]⟩
      · exact .inr ⟨rfl, by simp [hname]⟩

/-- What is read is a setting. -/
theorem exists_of_readOne (h : readOne isSpace string = .set name value rest) :
    ∃ lead gap text, string = lead ++ (name ++ (gap ++ (text ++ rest))) ∧ Blank isSpace lead ∧
      IsName isSpace name ∧ Blank isSpace gap ∧ IsValue isSpace value rest text := by
  rcases readOne_cases isSpace string with ⟨-, hstop⟩ | ⟨-, hstop⟩ |
    ⟨-, lead, name', gap, sign, text, rfl, hlead, hname, hgap, ⟨rfl, hread⟩ | ⟨rfl, hread⟩⟩
  · simp [hstop] at h
  · simp [hstop] at h
  · obtain ⟨rfl, gap', rfl, hgap', hne, hvalue, hrest⟩ := colonValue_eq_set.1 (hread.symm.trans h)
    exact ⟨lead, gap, _, by simp, hlead, hname, hgap, .colon hgap' hne hvalue hrest⟩
  · obtain ⟨rfl, gap', separator, rfl, hgap', hne, hseparator, hvalue⟩ :=
      assignValue_eq_set.1 (hread.symm.trans h)
    exact ⟨lead, gap, _, by simp, hlead, hname, hgap, .assign hgap' hne hseparator hvalue⟩

/-- What the code relies on of white space. -/
structure IsUnicharIsspace (isSpace : Char → Bool) : Prop where
  blank : isSpace ' ' = true
  sign : ∀ c, isSign c = true → isSpace c = false
  separator : ∀ c, isSeparator c = true → isSpace c = false

/-- A name with its sign is read. -/
theorem readOne_name (hspace : IsUnicharIsspace isSpace) {lead gap : List Char} {sign : Char}
    (hlead : Blank isSpace lead) (hname : IsName isSpace name) (hgap : Blank isSpace gap)
    (hsign : isSign sign = true) :
    readOne isSpace (lead ++ (name ++ (gap ++ sign :: string))) =
      if sign = ':' then colonValue isSpace name string else assignValue isSpace name string := by
  obtain ⟨hfront, hback⟩ := strip_eq_self.1 hname.strip
  have hskip : skipSpace isSpace (lead ++ (name ++ (gap ++ sign :: string))) =
      name ++ (gap ++ sign :: string) := by
    rw [skipSpace_append hlead, skipSpace_eq_self]
    intro c hc
    obtain ⟨d, name', rfl⟩ := List.exists_cons_of_ne_nil hname.ne_nil
    obtain rfl : d = c := by simpa using hc
    exact skipSpace_eq_self.1 hfront d rfl
  have hno : ∀ c ∈ name ++ gap, (! isSign c) = true := by
    intro c hc
    rcases List.mem_append.1 hc with hc | hc
    · simpa using hname.no_sign c hc
    · have hblank := hgap c hc
      by_contra hsign
      rw [hspace.sign c (by simpa using hsign)] at hblank
      cases hblank
  rw [readOne, hskip, ← List.append_assoc]
  simp only
  rw [List.takeWhile_append_of_pos hno, List.dropWhile_append_of_pos hno,
    if_neg (by simp [hname.ne_nil])]
  simp [hsign, rdropWhile_append_of_pos hgap, hback, hname.ne_nil]

/-- A setting is read. -/
theorem readOne_setting (hspace : IsUnicharIsspace isSpace) {lead gap text : List Char}
    (hlead : Blank isSpace lead) (hname : IsName isSpace name) (hgap : Blank isSpace gap)
    (hvalue : IsValue isSpace value rest text) :
    readOne isSpace (lead ++ (name ++ (gap ++ (text ++ rest)))) = .set name value rest := by
  cases hvalue with
  | colon hgap' hne hvalue hrest =>
    rw [List.cons_append, readOne_name hspace hlead hname hgap rfl, if_pos rfl]
    exact colonValue_eq_set.2 ⟨rfl, _, by simp, hgap', hne, hvalue, hrest⟩
  | assign hgap' hne hseparator hvalue =>
    rw [List.cons_append, readOne_name hspace hlead hname hgap rfl, if_neg (by decide)]
    exact assignValue_eq_set.2 ⟨rfl, _, _, by simp, hgap', hne, hseparator, hvalue⟩

/-- What can stand behind a value just as well. -/
theorem readOne_append_of (hspace : IsUnicharIsspace isSpace)
    (h : readOne isSpace string = .set name value rest) :
    ∃ pre, pre ≠ [] ∧ string = pre ++ rest ∧ ∀ rest' : List Char,
      (∀ c ∈ rest'.head?, c ∈ rest.head? ∨ endsValue isSpace c = true) →
        readOne isSpace (pre ++ rest') = .set name value rest' := by
  obtain ⟨lead, gap, text, rfl, hlead, hname, hgap, hvalue⟩ := exists_of_readOne h
  refine ⟨lead ++ (name ++ (gap ++ text)), by simp [hname.ne_nil], by simp, fun rest' hrest' => ?_⟩
  have hvalue' : IsValue isSpace value rest' text := by
    cases hvalue with
    | colon hgap' hne hvalue hrest =>
      exact .colon hgap' hne hvalue fun c hc => (hrest' c hc).elim (hrest c) id
    | assign hgap' hne hseparator hvalue => exact .assign hgap' hne hseparator hvalue
  have hread := readOne_setting hspace hlead hname hgap hvalue'
  simpa using hread

/-! ## Separators -/

theorem length_rest_lt (h : readOne isSpace string = .set name value rest) :
    rest.length < string.length := by
  obtain ⟨lead, gap, text, rfl, -, hname, -, -⟩ := exists_of_readOne h
  have hpos := List.length_pos_iff.2 hname.ne_nil
  simp only [List.length_append]
  omega

theorem length_skipSeparator_le (isSpace : Char → Bool) (seen : Bool) (string : List Char) :
    (skipSeparator isSpace seen string).length ≤ string.length := by
  fun_induction skipSeparator isSpace seen string <;> simp_all <;> omega

theorem skipSeparator_true (string : List Char) :
    skipSeparator isSpace true string = skipSpace isSpace string := by
  induction string with
  | nil => rfl
  | cons c string ih =>
    rw [skipSeparator.eq_def, skipSpace, List.dropWhile_cons]
    simp [ih, skipSpace]

theorem skipSeparator_blank (hspace : IsUnicharIsspace isSpace) {gap : List Char}
    (hgap : Blank isSpace gap) (string : List Char) :
    skipSeparator isSpace false (gap ++ string) = skipSeparator isSpace false string := by
  induction gap with
  | nil => rfl
  | cons c gap ih =>
    obtain ⟨hc, hgap⟩ := List.forall_mem_cons.1 hgap
    have hnot : isSeparator c = false := by
      by_contra hsep
      rw [hspace.separator c (by simpa using hsep)] at hc
      cases hc
    rw [List.cons_append, skipSeparator.eq_def]
    simp [hnot, hc, ih hgap]

theorem skipSeparator_separator {separator : Char} (hseparator : isSeparator separator = true)
    (string : List Char) :
    skipSeparator isSpace false (separator :: string) = skipSpace isSpace string := by
  rw [skipSeparator.eq_def]
  cases string with
  | nil => simp [hseparator, skipSpace]
  | cons d string =>
    rw [skipSpace, List.dropWhile_cons]
    simp [hseparator, skipSeparator_true, skipSpace]

theorem skipSeparator_eq_self (hspace : ∀ c ∈ string.head?, isSpace c = false)
    (hseparator : ∀ c ∈ string.head?, isSeparator c = false) :
    skipSeparator isSpace false string = string := by
  cases string with
  | nil => rfl
  | cons c string => simp [skipSeparator.eq_def, hspace c rfl, hseparator c rfl]

/-- What is skipped between two settings, with `string` behind it. -/
inductive Skips (isSpace : Char → Bool) (string : List Char) : List Char → Prop
  | blank {gap : List Char} (hgap : Blank isSpace gap)
    (hspace : ∀ c ∈ string.head?, isSpace c = false)
    (hseparator : ∀ c ∈ string.head?, isSeparator c = false) : Skips isSpace string gap
  | separator {before after : List Char} {separator : Char} (hbefore : Blank isSpace before)
    (hseparator : isSeparator separator = true) (hafter : Blank isSpace after)
    (hspace : ∀ c ∈ string.head?, isSpace c = false) :
    Skips isSpace string (before ++ separator :: after)

theorem Skips.skipSeparator (hspace : IsUnicharIsspace isSpace) {skipped : List Char}
    (h : Skips isSpace string skipped) :
    skipSeparator isSpace false (skipped ++ string) = string := by
  cases h with
  | blank hgap hhead hseparator =>
    rw [skipSeparator_blank hspace hgap, skipSeparator_eq_self hhead hseparator]
  | separator hbefore hseparator hafter hhead =>
    rw [List.append_assoc, skipSeparator_blank hspace hbefore, List.cons_append,
      skipSeparator_separator hseparator, skipSpace_append hafter, skipSpace_eq_self.2 hhead]

theorem exists_skips (hspace : IsUnicharIsspace isSpace) (string : List Char) :
    ∃ skipped, string = skipped ++ ConfigText.skipSeparator isSpace false string ∧
      Skips isSpace (ConfigText.skipSeparator isSpace false string) skipped := by
  obtain ⟨lead, hstring, hlead, hhead⟩ := exists_skipSpace isSpace string
  have hskip : ConfigText.skipSeparator isSpace false string =
      ConfigText.skipSeparator isSpace false (skipSpace isSpace string) := by
    conv_lhs => rw [hstring]
    exact skipSeparator_blank hspace hlead _
  cases hp : skipSpace isSpace string with
  | nil =>
    rw [hp] at hskip hstring
    rw [hskip]
    exact ⟨lead, hstring, .blank hlead nofun nofun⟩
  | cons c rest =>
    rw [hp] at hskip hstring hhead
    cases hc : isSeparator c with
    | false =>
      rw [skipSeparator_eq_self hhead (by simpa using hc)] at hskip
      rw [hskip]
      exact ⟨lead, hstring, .blank hlead hhead (by simpa using hc)⟩
    | true =>
      rw [skipSeparator_separator hc] at hskip
      obtain ⟨after, hrest, hafter, hhead'⟩ := exists_skipSpace isSpace rest
      rw [hskip]
      refine ⟨lead ++ c :: after, ?_, .separator hlead hc hafter hhead'⟩
      rw [hstring, List.append_assoc, List.cons_append, ← hrest]

/-- The same is skipped if more text follows. -/
theorem Skips.append {skipped more : List Char} (h : Skips isSpace string skipped)
    (hmore : string = [] → (∀ c ∈ more.head?, isSpace c = false) ∧
      ∀ c ∈ more.head?, isSeparator c = false) : Skips isSpace (string ++ more) skipped := by
  have hhead {P : Char → Prop} (hstring : ∀ c ∈ string.head?, P c)
      (hmore : string = [] → ∀ c ∈ more.head?, P c) : ∀ c ∈ (string ++ more).head?, P c := by
    cases string with
    | nil => exact hmore rfl
    | cons d string => exact hstring
  cases h with
  | blank hgap hspace hseparator =>
    exact .blank hgap (hhead hspace fun h => (hmore h).1) (hhead hseparator fun h => (hmore h).2)
  | separator hbefore hseparator hafter hspace =>
    exact .separator hbefore hseparator hafter (hhead hspace fun h => (hmore h).1)

theorem Skips.not_blank {skipped : List Char} (h : Skips isSpace string skipped)
    (hne : string ≠ []) : ¬ Blank isSpace string := by
  have hhead : ∀ c ∈ string.head?, isSpace c = false := by cases h <;> assumption
  obtain ⟨c, rest, rfl⟩ := List.exists_cons_of_ne_nil hne
  intro hblank
  have hc := hhead c rfl
  rw [hblank c List.mem_cons_self] at hc
  cases hc

theorem Skips.of_append {skipped more : List Char} (h : Skips isSpace (string ++ more) skipped) :
    Skips isSpace string skipped := by
  have hhead {P : Char → Prop} (hall : ∀ c ∈ (string ++ more).head?, P c) :
      ∀ c ∈ string.head?, P c := by
    cases string with
    | nil => nofun
    | cons d string => exact hall
  cases h with
  | blank hgap hspace hseparator => exact .blank hgap (hhead hspace) (hhead hseparator)
  | separator hbefore hseparator hafter hspace =>
    exact .separator hbefore hseparator hafter (hhead hspace)

/-! ## Reading a text -/

/-- `moo_edit_config_parse`: the settings that are set, and how the loop ends. -/
def parse (isSpace : Char → Bool) (string : List Char) : List (List Char × List Char) × End :=
  match _h : readOne isSpace string with
  | .stop how => ([], how)
  | .set name value rest =>
    let (settings, how) := parse isSpace (skipSeparator isSpace false rest)
    ((name, value) :: settings, how)
termination_by string.length
decreasing_by exact (length_skipSeparator_le isSpace false rest).trans_lt (length_rest_lt _h)

theorem parse_of_stop {how : End} (h : readOne isSpace string = .stop how) :
    parse isSpace string = ([], how) := by
  rw [parse.eq_def]
  split <;> simp_all

theorem parse_of_set (h : readOne isSpace string = .set name value rest) :
    parse isSpace string = ((name, value) :: (parse isSpace (skipSeparator isSpace false rest)).1,
      (parse isSpace (skipSeparator isSpace false rest)).2) := by
  rw [parse.eq_def]
  split <;> simp_all

theorem parse_skipSpace (string : List Char) :
    parse isSpace (skipSpace isSpace string) = parse isSpace string := by
  have hidem : skipSpace isSpace (skipSpace isSpace string) = skipSpace isSpace string :=
    List.dropWhile_idempotent isSpace string
  have hread : readOne isSpace (skipSpace isSpace string) = readOne isSpace string := by
    rw [readOne, hidem, readOne]
  cases h : readOne isSpace string with
  | stop how => rw [parse_of_stop h, parse_of_stop (hread.trans h)]
  | set name value rest => rw [parse_of_set h, parse_of_set (hread.trans h)]

theorem readOne_eq_done : readOne isSpace string = .stop .done ↔ Blank isSpace string := by
  rcases readOne_cases isSpace string with ⟨hblank, hstop⟩ | ⟨hblank, hstop⟩ |
    ⟨hblank, lead, name, gap, sign, text, rfl, -, -, -, ⟨-, hread⟩ | ⟨-, hread⟩⟩
  · simp [hblank, hstop]
  · simp [hblank, hstop]
  · simp [hblank, hread, colonValue_ne_done]
  · simp [hblank, hread, assignValue_ne_done]

theorem parse_blank (h : Blank isSpace string) : parse isSpace string = ([], .done) :=
  parse_of_stop (readOne_eq_done.2 h)

end Medit.ConfigText
