import Medit.Accel.Runs

/-!
# Spellings of an accelerator

`_moo_accel_parse` takes modifiers in brackets, and modifiers with a plus or a minus behind each of
them. What it makes of the three spellings of the same modifiers and key is compared here.

## Main definitions

* `angled`, `joined` — the spellings.
* `Gdk.SpellingsAgree` — all of them are read as one key, in lower case, with the modifiers.

## Main results

* `Gdk.accelParse_spellings` — when the spellings agree, and that normalizing twice is normalizing.
-/

namespace Medit.Accel

open CString

/-! ## Spellings -/

/-- `<M1>...<Mk>K` -/
def angled (mods : List AccelString) (key : AccelString) : AccelString :=
  mods.flatMap bracket ++ key

/-- `M1+...+Mk+K` for a separator `+`. -/
def joined (sep : UInt8) (mods : List AccelString) (key : AccelString) : AccelString :=
  [sep].intercalate (mods ++ [key])

/-- All modifiers of a list. -/
def modsOf (mods : List AccelString) : ℕ := (mods.map parseMod).foldl (· ||| ·) 0

abbrev plus : UInt8 := 43

abbrev minus : UInt8 := 45

/-- A printable symbol of ASCII, no letter and no digit. -/
def isSymbol (c : UInt8) : Bool :=
  33 ≤ c && c ≤ 126 && !(isDigit c || (65 ≤ c && c ≤ 90) || (97 ≤ c && c ≤ 122))

namespace Gdk

variable (gdk : Gdk)

/-- The names of keys are identifiers. -/
def NamesAreWords : Prop := ∀ name, gdk.keyByName name ≠ 0 → name ≠ [] ∧ ∀ c ∈ name, isWordByte c

/-- A key is given by its name or by a symbol. -/
def GivesKey (key : AccelString) : Prop :=
  gdk.keyByName key ≠ 0 ∨ ∃ sym, key = [sym] ∧ isSymbol sym

/-- The spellings are read as one key in lower case, with these modifiers. -/
def SpellingsAgree (mods : List AccelString) (key : AccelString) : Prop :=
  ∃ keyval, gdk.keyvalToLower keyval = keyval ∧
    ∀ accel ∈ [angled mods key, joined plus mods key, joined minus mods key],
      gdk.accelParse accel = some (keyval, modsOf mods)

end Gdk

/-! ## Modifiers -/

theorem mem_strip_or_space {s : AccelString} {c : UInt8} (hc : c ∈ s) :
    c ∈ strip s ∨ isSpace c = true := by
  have hdrop {t : AccelString} (ht : c ∈ t) : c ∈ t.dropWhile isSpace ∨ isSpace c = true := by
    rw [← List.takeWhile_append_dropWhile (p := isSpace) (l := t), List.mem_append] at ht
    exact ht.symm.imp_right fun h => List.mem_takeWhile_imp h
  obtain h | h := hdrop hc
  · obtain h | h := hdrop (List.mem_reverse.2 h)
    · exact .inl (List.mem_reverse.2 h)
    · exact .inr h
  · exact .inr h

/-- The bytes of a modifier are those of words, and blanks. -/
theorem parseMod_bytes {m : AccelString} (hm : parseMod m ≠ 0) {c : UInt8} (hc : c ∈ m) :
    isSpace c = true ∨ isWordByte c = true := by
  have hnames : modNames.all fun n => n.1.all isWordByte := by decide
  have hstrip : ∀ c ∈ strip (m.map toLower), isWordByte c = true := by
    unfold parseMod at hm
    cases hlookup : modNames.lookup (strip (m.map toLower)) with
    | none => simp [hlookup] at hm
    | some mod =>
      obtain ⟨l₁, l₂, heq, -⟩ := List.lookup_eq_some_iff.1 hlookup
      exact List.all_eq_true.1 (List.all_eq_true.1 hnames _ (heq ▸ List.mem_append_cons_self))
  by_cases hupper : 65 ≤ c ∧ c ≤ 90
  · exact .inr (by simp [isWordByte, hupper])
  · have hlower : toLower c = c := if_neg hupper
    have hmem : c ∈ m.map toLower := hlower ▸ List.mem_map_of_mem hc
    exact (mem_strip_or_space hmem).symm.imp_right (hstrip c)

theorem not_mem_mod {m : AccelString} (hm : parseMod m ≠ 0) {c : UInt8} (hspace : isSpace c = false)
    (hword : isWordByte c = false) : c ∉ m := fun hc => by
  obtain h | h := parseMod_bytes hm hc <;> simp_all

theorem mod_ne_nil {m : AccelString} (hm : parseMod m ≠ 0) : m ≠ [] := by
  rintro rfl
  exact hm (by decide)

/-! ## Separators -/

theorem joined_cons (sep : UInt8) (m : AccelString) (mods : List AccelString) (key : AccelString) :
    joined sep (m :: mods) key = m ++ sep :: joined sep mods key := by
  rw [joined, joined, List.cons_append, List.intercalate_cons_of_ne_nil (by simp)]
  simp

section Joined

variable {sep : UInt8} {mods : List AccelString} {key : AccelString}

theorem splitSet_joined (hne : mods ≠ []) (hmods : ∀ m ∈ mods, sep ∉ m) (hkey : sep ∉ key) :
    splitSet (· == sep) (joined sep mods key) = mods ++ [key] := by
  obtain ⟨m, rest, rfl⟩ := List.exists_cons_of_ne_nil hne
  have hall : ∀ l ∈ m :: rest ++ [key], sep ∉ l := by
    intro l hl
    obtain hl | hl := List.mem_append.1 hl
    · exact hmods l hl
    · exact List.mem_singleton.1 hl ▸ hkey
  rw [splitSet, if_neg (by simp [joined_cons])]
  exact List.splitOn_intercalate sep hall (by simp)

theorem mem_joined {c : UInt8} (hc : c ∈ joined sep mods key) :
    c = sep ∨ c ∈ key ∨ ∃ m ∈ mods, c ∈ m := by
  induction mods with
  | nil => exact .inr (.inl (by simpa [joined] using hc))
  | cons m mods ih =>
    rw [joined_cons] at hc
    obtain hc | rfl | hc : c ∈ m ∨ c = sep ∨ c ∈ joined sep mods key := by simpa using hc
    · exact .inr (.inr ⟨m, by simp, hc⟩)
    · exact .inl rfl
    · obtain h | h | ⟨m', hm', h⟩ := ih hc
      · exact .inl h
      · exact .inr (.inl h)
      · exact .inr (.inr ⟨m', by simp [hm'], h⟩)

end Joined

/-! ## Reading -/

namespace Gdk

variable {gdk : Gdk} {mods : List AccelString} {key : AccelString}

theorem parseFrom_angled (hmods : ∀ m ∈ mods, parseMod m ≠ 0) (acc : ℕ) :
    gdk.parseFrom acc (angled mods key) =
      gdk.parseFrom ((mods.map parseMod).foldl (· ||| ·) acc) key := by
  induction mods generalizing acc with
  | nil => rfl
  | cons m mods ih =>
    have hm := hmods m (by simp)
    have hangled : angled (m :: mods) key = bracket m ++ angled mods key := by simp [angled]
    rw [hangled, parseFrom_bracket (not_mem_mod hm (by decide) (by decide)) hm,
      ih fun m' hm' => hmods m' (by simp [hm'])]
    rfl

/-- Behind brackets a key is found by its name only. -/
theorem parseFrom_key (hwords : gdk.NamesAreWords) (hkey : gdk.GivesKey key) (acc : ℕ) :
    gdk.parseFrom acc key = (gdk.keyByName key, acc) := by
  have hword (hname : gdk.keyByName key ≠ 0) :
      gdk.parseFrom acc key = (gdk.keyByName key, acc) := by
    obtain ⟨hne, hall⟩ := hwords key hname
    refine parseFrom_of_ne_less hne (fun hhead => ?_) acc
    have := hall less (List.mem_of_mem_head? hhead)
    simp [isWordByte, less] at this
  obtain hname | ⟨sym, rfl, hsym⟩ := hkey
  · exact hword hname
  · by_cases hname : gdk.keyByName [sym] = 0
    · rw [hname]
      by_cases hless : sym = less
      · rw [parseFrom, if_pos hless, if_neg (by simp)]
      · rw [parseFrom, if_neg hless, hname]
    · exact hword hname

theorem accelParse_angled (hwords : gdk.NamesAreWords) (hne : mods ≠ [])
    (hmods : ∀ m ∈ mods, parseMod m ≠ 0) (hkey : gdk.GivesKey key) :
    gdk.accelParse (angled mods key) = gdk.found (gdk.keyByName key) (modsOf mods) := by
  obtain ⟨m, rest, rfl⟩ := List.exists_cons_of_ne_nil hne
  have hangled : angled (m :: rest) key = less :: (m ++ greater :: angled rest key) := by
    simp [angled, bracket]
  rw [accelParse, if_neg (by simp [hangled]), if_neg (by simp [hangled]),
    if_pos (by simp [hangled]), acceleratorParse, parseFrom_angled hmods,
    parseFrom_key hwords hkey]
  rfl

theorem parseKey_of_words (hwords : gdk.NamesAreWords) (hname : gdk.keyByName key ≠ 0) :
    gdk.parseKey key = gdk.keyByName key := by
  obtain ⟨hne, hall⟩ := hwords key hname
  have hstrip : strip key = key := strip_of_not_space fun c hc => by
    have hword := hall c hc
    by_contra hspace
    simp only [isSpace, Bool.not_eq_false, Bool.or_eq_true, beq_iff_eq] at hspace
    rcases hspace with (((rfl | rfl) | rfl) | rfl) | rfl <;> simp [isWordByte] at hword
  unfold parseKey
  rw [hstrip]
  split
  · exact absurd rfl hne
  · rw [if_neg hname]
  · rfl

theorem accelParseSep_joined (hwords : gdk.NamesAreWords) (hne : mods ≠ [])
    (hmods : ∀ m ∈ mods, parseMod m ≠ 0) (hname : gdk.keyByName key ≠ 0) {sep : UInt8}
    (hspace : isSpace sep = false) (hword : isWordByte sep = false) :
    gdk.accelParseSep (joined sep mods key) sep = some (gdk.keyByName key, modsOf mods) := by
  have hkey : sep ∉ key := fun hsep => by simp [(hwords key hname).2 sep hsep] at hword
  have hsplit := splitSet_joined hne (fun m hm => not_mem_mod (hmods m hm) hspace hword) hkey
  have hlen : ¬ (mods ++ [key]).length ≤ 1 := by
    have := List.length_pos_iff.2 hne
    simp only [List.length_append, List.length_singleton]
    omega
  unfold accelParseSep
  simp only [hsplit, if_neg hlen, List.dropLast_concat, List.getLast?_concat, Option.getD_some,
    parseKey_of_words hwords hname]
  rw [if_neg]
  · rfl
  · rintro (hzero | hzero)
    · obtain ⟨m, hm, hz⟩ := List.mem_map.1 hzero
      exact hmods m hm hz
    · exact hname hzero

theorem accelParse_joined (hwords : gdk.NamesAreWords) (hne : mods ≠ [])
    (hmods : ∀ m ∈ mods, parseMod m ≠ 0) (hname : gdk.keyByName key ≠ 0) {sep : UInt8}
    (hsep : sep = plus ∨ sep = minus) :
    gdk.accelParse (joined sep mods key) = some (gdk.keyByName key, modsOf mods) := by
  have hspace : isSpace sep = false := by rcases hsep with rfl | rfl <;> decide
  have hword : isWordByte sep = false := by rcases hsep with rfl | rfl <;> decide
  have hparse := accelParseSep_joined hwords hne hmods hname hspace hword
  obtain ⟨m, rest, rfl⟩ := List.exists_cons_of_ne_nil hne
  have hm := hmods m (by simp)
  have hrest : joined sep rest key ≠ [] := by
    cases rest with
    | nil => simpa [joined] using (hwords key hname).1
    | cons m' rest => simp [joined_cons]
  have hhead : (joined sep (m :: rest) key).head? ≠ some less := fun heq => by
    rw [joined_cons, List.head?_append_of_ne_nil _ (mod_ne_nil hm)] at heq
    exact not_mem_mod hm (by decide) (by decide) (List.mem_of_mem_head? heq)
  have hmem : sep ∈ (joined sep (m :: rest) key).dropLast := by
    rw [joined_cons, List.dropLast_append_of_ne_nil (by simp), List.dropLast_cons_of_ne_nil hrest]
    simp
  have hlen : (joined sep (m :: rest) key).length ≠ 1 := by
    have := List.length_pos_iff.2 hrest
    have := List.length_pos_iff.2 (mod_ne_nil hm)
    rw [joined_cons, List.length_append, List.length_cons]
    omega
  rw [accelParse, if_neg (by simp [joined_cons]), if_neg hlen, if_neg hhead]
  obtain rfl | rfl := hsep
  · rw [if_pos hmem, hparse]
  · have hplus : plus ∉ joined minus (m :: rest) key := fun hc => by
      obtain h | h | ⟨m', hm', h⟩ := mem_joined hc
      · exact absurd h (by decide)
      · have := (hwords key hname).2 plus h
        simp [isWordByte, plus] at this
      · exact not_mem_mod (hmods m' hm') (by decide) (by decide) h
    rw [if_neg fun h => hplus (List.dropLast_subset _ h), if_pos hmem, hparse]

/-! ## Main results -/

/-- The spellings agree for keys with a name and in lower case. -/
theorem spellingsAgree_iff (hwords : gdk.NamesAreWords) (hne : mods ≠ [])
    (hmods : ∀ m ∈ mods, parseMod m ≠ 0) (hkey : gdk.GivesKey key) :
    gdk.SpellingsAgree mods key ↔
      gdk.keyByName key ≠ 0 ∧ gdk.keyvalToLower (gdk.keyByName key) = gdk.keyByName key := by
  have hangled := accelParse_angled hwords hne hmods hkey
  constructor
  · rintro ⟨keyval, hlower, hall⟩
    have hname : gdk.keyByName key ≠ 0 := fun hzero => by
      have := hall (angled mods key) (by simp)
      rw [hangled, hzero, found, if_pos rfl] at this
      simp at this
    have hplus := hall (joined plus mods key) (by simp)
    rw [accelParse_joined hwords hne hmods hname (.inl rfl)] at hplus
    obtain rfl : gdk.keyByName key = keyval := by simpa using hplus
    exact ⟨hname, hlower⟩
  · rintro ⟨hname, hlower⟩
    refine ⟨gdk.keyByName key, hlower, fun accel haccel => ?_⟩
    obtain rfl | rfl | rfl : accel = angled mods key ∨ accel = joined plus mods key ∨
      accel = joined minus mods key := by simpa using haccel
    · rw [hangled, found, if_neg hname, hlower]
    · exact accelParse_joined hwords hne hmods hname (.inl rfl)
    · exact accelParse_joined hwords hne hmods hname (.inr rfl)

/-- What is normalized stays when it is normalized again. -/
theorem Documented.normalize_normalize (h : gdk.Documented) {accel name : AccelString}
    (hname : gdk.normalize accel = some name) : gdk.normalize name = some name := by
  obtain ⟨⟨keyval, mods⟩, hparse, rfl⟩ := Option.map_eq_some_iff.1 hname
  obtain ⟨hkey, hmods⟩ := h.accelParse_found hparse
  rw [normalize, h.accelParse_name hkey hmods, Option.map_some]
  dsimp only
  rw [h.acceleratorName_eq _ _ (h.lower_named hkey), h.acceleratorName_eq _ _ hkey, nameOf, nameOf,
    h.lower_lower _ hkey]

/-- For any modifiers the three spellings agree if and only if the key is given by its name and is
in lower case. What is normalized stays when it is normalized again. -/
theorem accelParse_spellings (h : gdk.Documented) (hwords : gdk.NamesAreWords) :
    (∀ mods key, mods ≠ [] → (∀ m ∈ mods, parseMod m ≠ 0) → gdk.GivesKey key →
      (gdk.SpellingsAgree mods key ↔
        gdk.keyByName key ≠ 0 ∧ gdk.keyvalToLower (gdk.keyByName key) = gdk.keyByName key)) ∧
    ∀ accel name, gdk.normalize accel = some name → gdk.normalize name = some name :=
  ⟨fun _ _ hne hmods hkey => spellingsAgree_iff hwords hne hmods hkey,
    fun _ _ => h.normalize_normalize⟩

theorem namesAreWords_asciiGdk : asciiGdk.NamesAreWords := by
  have hall : ∀ k ∈ asciiKeys, k.1 ≠ [] ∧ k.1.all isWordByte = true := by decide
  intro name hname
  simp only [keyByName, asciiGdk] at hname
  cases hlookup : asciiKeys.lookup name with
  | none => simp [hlookup] at hname
  | some key =>
    obtain ⟨l₁, l₂, heq, -⟩ := List.lookup_eq_some_iff.1 hlookup
    obtain ⟨hne, hword⟩ := hall (name, key) (heq ▸ List.mem_append_cons_self)
    exact ⟨hne, List.all_eq_true.1 hword⟩

/-- Control and Shift with the key of `a`. -/
theorem accelParse_spellings_ctrl :
    asciiGdk.SpellingsAgree [ascii "CTRL".toList, ascii "shft".toList] (ascii "a".toList) :=
  ((accelParse_spellings documented_asciiGdk namesAreWords_asciiGdk).1 _ _ (by simp) (by decide)
    (.inl (by decide))).2 ⟨by decide, by decide⟩

/-- The key of `A` is in lower case behind brackets only. -/
theorem accelParse_spellings_upper :
    ¬ ∀ gdk : Gdk, gdk.Documented → gdk.NamesAreWords → ∀ mods key, mods ≠ [] →
      (∀ m ∈ mods, parseMod m ≠ 0) → gdk.GivesKey key → gdk.SpellingsAgree mods key := by
  intro hall
  have hagree := hall asciiGdk documented_asciiGdk namesAreWords_asciiGdk
    [ascii "Ctrl".toList] (ascii "A".toList) (by simp) (by decide) (.inl (by decide))
  rw [spellingsAgree_iff namesAreWords_asciiGdk (by simp) (by decide) (.inl (by decide))] at hagree
  exact absurd hagree.2 (by decide)

end Gdk

end Medit.Accel
