import Medit.Library.CString
import Mathlib.Data.Nat.Bitwise
import Mathlib.Data.List.Basic

/-!
# Accelerator strings

Two parsers of `mooaccel.cpp` read accelerators: the one for what a user writes, with `Ctrl+A`,
`Ctrl-A` and `<Ctrl>A`, and the one behind `set_accel`, which knows the last form only. What goes
from the first one to the second is the name that GTK gives to a key with modifiers.

## Main definitions

* `Gdk` — the names of keys and of accelerators, and `Gdk.Documented`, what is relied on.
* `Gdk.acceleratorParse` — `my_gtk_accelerator_parse`.
* `Gdk.accelParse`, `Gdk.normalize` — `_moo_accel_parse` and `_moo_accel_normalize`.

## Main results

* `Gdk.Documented.acceleratorParse_name`, `Gdk.Documented.accelParse_name` — both parsers read the
  names of GTK with the modifiers that they know.
* `Gdk.Documented.accelParse_found` — they find no other modifiers.
-/

namespace Medit.Accel

open CString

abbrev AccelString := List UInt8

/-! ## Keys and modifiers -/

/-- `GDK_KEY_VoidSymbol`, which stands for no key. -/
def keyVoidSymbol : ℕ := 0xffffff

/-- The keys of GDK, and the names that GTK gives to accelerators. Modifiers are sets of bits. -/
structure Gdk where
  keyvalFromName : AccelString → ℕ
  keyvalName : ℕ → AccelString
  keyvalToLower : ℕ → ℕ
  /-- `gtk_accelerator_name` -/
  acceleratorName : ℕ → ℕ → AccelString
  /-- whether GTK takes a path -/
  pathIsValid : AccelString → Bool

def less : UInt8 := 60

def greater : UInt8 := 62

/-- A modifier as accelerators are written. -/
def bracket (name : AccelString) : AccelString := less :: (name ++ [greater])

/-- The modifiers that are known here, each with its bit and the name that GTK writes. -/
def knownModifiers : List (ℕ × AccelString) :=
  [(30, ascii "Release".toList), (2, ascii "Primary".toList), (0, ascii "Shift".toList),
    (3, ascii "Alt".toList), (4, ascii "Mod2".toList), (5, ascii "Mod3".toList),
    (6, ascii "Mod4".toList), (7, ascii "Mod5".toList), (28, ascii "Meta".toList)]

/-- All modifiers that GTK names. -/
def gtkModifiers : List (ℕ × AccelString) :=
  knownModifiers ++ [(27, ascii "Hyper".toList), (26, ascii "Super".toList)]

/-- The keys of `keyval_from_symbol`, which are the codes of the symbols themselves. -/
def symbols : List UInt8 := ascii "!\"#$%&'()*+,-./:;<=>?@[\\]_`\x7b|\x7d~".toList

/-- `keyval_from_symbol` -/
def keyvalFromSymbol (sym : UInt8) : ℕ := if sym ∈ symbols then sym.toNat else 0

/-- `mods` with known modifiers only. -/
def KnownMods (mods : ℕ) : Prop := ∀ bit, mods.testBit bit → bit ∈ knownModifiers.map (·.1)

/-- The bytes of the names of keys. -/
def isWordByte (c : UInt8) : Bool :=
  (48 ≤ c && c ≤ 57) || (65 ≤ c && c ≤ 90) || (97 ≤ c && c ≤ 122) || c == 95

namespace Gdk

variable (gdk : Gdk)

/-- A key that is found by a name. -/
def Named (key : ℕ) : Prop := key ≠ 0 ∧ key ≠ keyVoidSymbol ∧ ∃ name, gdk.keyvalFromName name = key

/-- The name that GTK writes: the modifiers in its order, and the key in lower case. -/
def nameOf (key mods : ℕ) : AccelString :=
  (gtkModifiers.filter fun m => mods.testBit m.1).flatMap (fun m => bracket m.2) ++
    gdk.keyvalName (gdk.keyvalToLower key)

/-- What is documented about the names. -/
structure Documented : Prop where
  acceleratorName_eq : ∀ key mods, gdk.Named key → gdk.acceleratorName key mods = gdk.nameOf key mods
  fromName_name : ∀ key, gdk.Named key →
    gdk.keyvalFromName (gdk.keyvalName (gdk.keyvalToLower key)) = gdk.keyvalToLower key
  name_ne_nil : ∀ key, gdk.Named key → gdk.keyvalName (gdk.keyvalToLower key) ≠ []
  name_word : ∀ key, gdk.Named key → ∀ c ∈ gdk.keyvalName (gdk.keyvalToLower key), isWordByte c
  lower_ne : ∀ key, gdk.Named key →
    gdk.keyvalToLower key ≠ 0 ∧ gdk.keyvalToLower key ≠ keyVoidSymbol
  lower_lower : ∀ key, gdk.Named key →
    gdk.keyvalToLower (gdk.keyvalToLower key) = gdk.keyvalToLower key
  symbol_named : ∀ sym ∈ symbols, gdk.Named sym.toNat

/-! ## The parsers -/

/-- A key by its name, or `0`. -/
def keyByName (name : AccelString) : ℕ :=
  if gdk.keyvalFromName name = keyVoidSymbol then 0 else gdk.keyvalFromName name

/-- `parse_key` -/
def parseKey (string : AccelString) : ℕ :=
  match strip string with
  | [] => 0
  | [sym] => if gdk.keyByName [sym] = 0 then keyvalFromSymbol sym else gdk.keyByName [sym]
  | stripped => gdk.keyByName stripped

end Gdk

/-- The names of `parse_mod`. -/
def modNames : List (AccelString × ℕ) :=
  [(ascii "alt".toList, 2 ^ 3), (ascii "ctl".toList, 2 ^ 2), (ascii "ctrl".toList, 2 ^ 2),
    (ascii "control".toList, 2 ^ 2), (ascii "cmd".toList, 2 ^ 2), (ascii "command".toList, 2 ^ 2),
    (ascii "meta".toList, 2 ^ 28), (ascii "mod1".toList, 2 ^ 3), (ascii "mod2".toList, 2 ^ 4),
    (ascii "mod3".toList, 2 ^ 5), (ascii "mod4".toList, 2 ^ 6), (ascii "mod5".toList, 2 ^ 7),
    (ascii "shift".toList, 2 ^ 0), (ascii "shft".toList, 2 ^ 0), (ascii "release".toList, 2 ^ 30),
    (ascii "primary".toList, 2 ^ 2)]

/-- `parse_mod` -/
def parseMod (string : AccelString) : ℕ := (modNames.lookup (strip (string.map toLower))).getD 0

namespace Gdk

variable (gdk : Gdk)

/-- The loop of `my_gtk_accelerator_parse` and what follows it: the key, or `0`, and the modifiers. -/
def parseFrom (mods : ℕ) : AccelString → ℕ × ℕ
  | [] => (0, mods)
  | c :: rest =>
    if c = less then
      if greater ∈ rest then
        let mod := parseMod (rest.takeWhile (· ≠ greater))
        if mod = 0 then (0, mods)
        else parseFrom (mods ||| mod) (rest.dropWhile (· ≠ greater)).tail
      else (0, mods)
    else (gdk.keyByName (c :: rest), mods)
  termination_by accel => accel.length
  decreasing_by
    have hle := (List.dropWhile_sublist (l := rest) (· ≠ greater)).length_le
    simp only [List.length_tail, List.length_cons]
    omega

/-- `my_gtk_accelerator_parse` -/
def acceleratorParse (accel : AccelString) : ℕ × ℕ := gdk.parseFrom 0 accel

/-- `accel_parse_sep` -/
def accelParseSep (accel : AccelString) (sep : UInt8) : Option (ℕ × ℕ) :=
  let pieces := splitSet (· == sep) accel
  if pieces.length ≤ 1 then none
  else
    let mods := pieces.dropLast.map parseMod
    let key := gdk.parseKey (pieces.getLast?.getD [])
    if 0 ∈ mods ∨ key = 0 then none else some (key, mods.foldl (· ||| ·) 0)

/-- The end of `_moo_accel_parse`. -/
def found (key mods : ℕ) : Option (ℕ × ℕ) :=
  if key = 0 then none else some (gdk.keyvalToLower key, mods)

/-- `_moo_accel_parse` -/
def accelParse (accel : AccelString) : Option (ℕ × ℕ) :=
  if accel = [] then none
  else if accel.length = 1 then gdk.found (gdk.parseKey accel) 0
  else if accel.head? = some less then
    gdk.found (gdk.acceleratorParse accel).1 (gdk.acceleratorParse accel).2
  -- a separator at the very end is the key
  else if 43 ∈ accel.dropLast then gdk.accelParseSep accel 43
  else if 45 ∈ accel.dropLast then gdk.accelParseSep accel 45
  else gdk.found (gdk.parseKey accel) 0

/-- `_moo_accel_normalize` -/
def normalize (accel : AccelString) : Option AccelString :=
  (gdk.accelParse accel).map fun (key, mods) => gdk.acceleratorName key mods

end Gdk

/-! ## Modifiers -/

theorem testBit_foldl (l : List (ℕ × AccelString)) (mods bit : ℕ) :
    (l.foldl (fun acc m => acc ||| 2 ^ m.1) mods).testBit bit =
      (mods.testBit bit || l.any fun m => m.1 = bit) := by
  induction l generalizing mods with
  | nil => simp
  | cons m l ih =>
    rw [List.foldl_cons, ih, Nat.testBit_or, Nat.testBit_two_pow, List.any_cons, Bool.or_assoc]

/-- The modifiers that are written are the modifiers. -/
theorem foldl_filter {mods : ℕ} (h : KnownMods mods) :
    (gtkModifiers.filter fun m => mods.testBit m.1).foldl (fun acc m => acc ||| 2 ^ m.1) 0 =
      mods := by
  refine Nat.eq_of_testBit_eq fun bit => ?_
  rw [testBit_foldl, Nat.zero_testBit, Bool.false_or, Bool.eq_iff_iff, List.any_eq_true]
  constructor
  · rintro ⟨m, hm, heq⟩
    obtain ⟨-, hset⟩ := List.mem_filter.1 hm
    exact of_decide_eq_true heq ▸ hset
  · intro hset
    obtain ⟨m, hm, rfl⟩ := List.mem_map.1 (h bit hset)
    exact ⟨m, List.mem_filter.2 ⟨List.mem_append_left _ hm, hset⟩, by simp⟩

theorem mem_knownModifiers {mods : ℕ} (h : KnownMods mods) {m : ℕ × AccelString}
    (hm : m ∈ gtkModifiers.filter fun m => mods.testBit m.1) : m ∈ knownModifiers := by
  have hbits : ∀ m ∈ gtkModifiers, m.1 ∈ knownModifiers.map (·.1) → m ∈ knownModifiers := by
    decide
  obtain ⟨hmem, hset⟩ := List.mem_filter.1 hm
  exact hbits m hmem (h _ hset)

theorem KnownMods.or {mods mods' : ℕ} (h : KnownMods mods) (h' : KnownMods mods') :
    KnownMods (mods ||| mods') := by
  intro bit hbit
  rw [Nat.testBit_or, Bool.or_eq_true] at hbit
  exact hbit.elim (h bit) (h' bit)

theorem knownMods_zero : KnownMods 0 := fun bit h => by simp at h

/-- What `parse_mod` finds is known. -/
theorem knownMods_parseMod (string : AccelString) : KnownMods (parseMod string) := by
  have hnames : ∀ n ∈ modNames, ∃ m ∈ knownModifiers, n.2 = 2 ^ m.1 := by decide
  unfold parseMod
  cases hlookup : modNames.lookup (strip (string.map toLower)) with
  | none => exact knownMods_zero
  | some mod =>
    obtain ⟨l₁, l₂, heq, -⟩ := List.lookup_eq_some_iff.1 hlookup
    obtain ⟨m, hm, hmod⟩ := hnames _ (heq ▸ List.mem_append_cons_self)
    intro bit hbit
    rw [Option.getD_some, show mod = 2 ^ m.1 from hmod, Nat.testBit_two_pow] at hbit
    exact of_decide_eq_true hbit ▸ List.mem_map_of_mem hm

/-- The parser knows the names of the known modifiers. -/
theorem parseMod_knownModifiers :
    ∀ m ∈ knownModifiers, parseMod m.2 = 2 ^ m.1 ∧ greater ∉ m.2 := by
  decide

/-! ## Reading -/

namespace Gdk

variable {gdk : Gdk}

theorem parseFrom_bracket {name : AccelString} (hname : greater ∉ name) (hmod : parseMod name ≠ 0)
    (mods : ℕ) (rest : AccelString) :
    gdk.parseFrom mods (bracket name ++ rest) = gdk.parseFrom (mods ||| parseMod name) rest := by
  have hall : ∀ c ∈ name, (c ≠ greater : Bool) = true := fun c hc => by
    simpa using fun heq : c = greater => hname (heq ▸ hc)
  have hsplit : name ++ [greater] ++ rest = name ++ greater :: rest := by simp
  have htake : (name ++ greater :: rest).takeWhile (· ≠ greater) = name := by
    rw [List.takeWhile_append_of_pos hall]
    simp
  have hdrop : (name ++ greater :: rest).dropWhile (· ≠ greater) = greater :: rest := by
    rw [List.dropWhile_append_of_pos hall]
    simp
  rw [bracket, List.cons_append, parseFrom, if_pos rfl, hsplit, if_pos (by simp), htake, hdrop]
  simp [hmod]

theorem parseFrom_brackets {l : List (ℕ × AccelString)} (h : ∀ m ∈ l, m ∈ knownModifiers) (mods : ℕ)
    (rest : AccelString) :
    gdk.parseFrom mods (l.flatMap (fun m => bracket m.2) ++ rest) =
      gdk.parseFrom (l.foldl (fun acc m => acc ||| 2 ^ m.1) mods) rest := by
  induction l generalizing mods with
  | nil => rfl
  | cons m l ih =>
    obtain ⟨hmod, hname⟩ := parseMod_knownModifiers m (h m (by simp))
    have hne : parseMod m.2 ≠ 0 := by simp [hmod]
    rw [List.flatMap_cons, List.append_assoc, parseFrom_bracket hname hne,
      ih fun m' hm' => h m' (List.mem_cons_of_mem _ hm'), hmod, List.foldl_cons]

theorem parseFrom_of_ne_less {accel : AccelString} (hne : accel ≠ []) (h : accel.head? ≠ some less)
    (mods : ℕ) : gdk.parseFrom mods accel = (gdk.keyByName accel, mods) := by
  cases accel with
  | nil => exact absurd rfl hne
  | cons c rest => rw [parseFrom, if_neg (by simpa using h)]

/-- The modifiers are found one by one, and the key has a name. -/
theorem parseFrom_found {mods : ℕ} {accel : AccelString} (hmods : KnownMods mods) :
    KnownMods (gdk.parseFrom mods accel).2 ∧
      ((gdk.parseFrom mods accel).1 ≠ 0 → gdk.Named (gdk.parseFrom mods accel).1) := by
  fun_induction gdk.parseFrom mods accel with
  | case1 mods => exact ⟨hmods, fun h => absurd rfl h⟩
  | case2 mods rest hend mod hmod => exact ⟨hmods, fun h => absurd rfl h⟩
  | case3 mods rest hend mod hmod ih => exact ih (hmods.or (knownMods_parseMod _))
  | case4 mods rest hend => exact ⟨hmods, fun h => absurd rfl h⟩
  | case5 mods c rest hc =>
    refine ⟨hmods, fun h => ?_⟩
    unfold keyByName at h ⊢
    split_ifs at h ⊢ with hvoid
    · exact absurd rfl h
    · exact ⟨h, hvoid, _, rfl⟩

theorem acceleratorParse_found (gdk : Gdk) (accel : AccelString) :
    KnownMods (gdk.acceleratorParse accel).2 ∧
      ((gdk.acceleratorParse accel).1 ≠ 0 → gdk.Named (gdk.acceleratorParse accel).1) :=
  parseFrom_found knownMods_zero

theorem parseKey_named (h : gdk.Documented) {string : AccelString} (hne : gdk.parseKey string ≠ 0) :
    gdk.Named (gdk.parseKey string) := by
  have hbyName {name : AccelString} (hkey : gdk.keyByName name ≠ 0) :
      gdk.Named (gdk.keyByName name) := by
    unfold keyByName at hkey ⊢
    split_ifs at hkey ⊢ with hvoid
    · exact absurd rfl hkey
    · exact ⟨hkey, hvoid, _, rfl⟩
  unfold parseKey at hne ⊢
  split at hne
  · exact absurd rfl hne
  · split_ifs at hne ⊢ with hkey
    · unfold keyvalFromSymbol at hne ⊢
      split_ifs at hne ⊢ with hsym
      · exact h.symbol_named _ hsym
      · exact absurd rfl hne
    · exact hbyName hkey
  · exact hbyName hne

theorem Documented.lower_named (h : gdk.Documented) {key : ℕ} (hkey : gdk.Named key) :
    gdk.Named (gdk.keyvalToLower key) :=
  ⟨(h.lower_ne key hkey).1, (h.lower_ne key hkey).2, _, h.fromName_name key hkey⟩

/-- Whatever a user writes that can be read, the key has a name and the modifiers are known. -/
theorem Documented.accelParse_found (h : gdk.Documented) {accel : AccelString} {key mods : ℕ}
    (hparse : gdk.accelParse accel = some (key, mods)) : gdk.Named key ∧ KnownMods mods := by
  have hfound {key' mods' : ℕ} (hkey : key' ≠ 0 → gdk.Named key') (hmods : KnownMods mods')
      (heq : gdk.found key' mods' = some (key, mods)) : gdk.Named key ∧ KnownMods mods := by
    unfold found at heq
    split_ifs at heq with hzero
    obtain ⟨rfl, rfl⟩ : gdk.keyvalToLower key' = key ∧ mods' = mods := by simpa using heq
    exact ⟨h.lower_named (hkey hzero), hmods⟩
  have hsep {sep : UInt8} (heq : gdk.accelParseSep accel sep = some (key, mods)) :
      gdk.Named key ∧ KnownMods mods := by
    unfold accelParseSep at heq
    extract_lets pieces mods' key' at heq
    split_ifs at heq with hlen hbad
    obtain ⟨rfl, rfl⟩ : _ = key ∧ _ = mods := by simpa using heq
    refine ⟨parseKey_named h fun hzero => hbad (.inr hzero), ?_⟩
    rw [List.foldl_map]
    refine List.foldlRecOn _ _ knownMods_zero fun acc hacc piece _ => ?_
    exact hacc.or (knownMods_parseMod piece)
  have hgtk := acceleratorParse_found gdk accel
  unfold accelParse at hparse
  split_ifs at hparse
  · exact hfound (parseKey_named h) knownMods_zero hparse
  · exact hfound hgtk.2 hgtk.1 hparse
  · exact hsep hparse
  · exact hsep hparse
  · exact hfound (parseKey_named h) knownMods_zero hparse

/-! ## Main results -/

section Names

variable {key mods : ℕ} (h : gdk.Documented) (hkey : gdk.Named key) (hmods : KnownMods mods)
include h hkey

theorem Documented.keyByName_name :
    gdk.keyByName (gdk.keyvalName (gdk.keyvalToLower key)) = gdk.keyvalToLower key := by
  rw [keyByName, h.fromName_name key hkey, if_neg (h.lower_ne key hkey).2]

theorem Documented.not_mem_name {c : UInt8} (hc : isWordByte c = false) :
    c ∉ gdk.keyvalName (gdk.keyvalToLower key) := fun hmem => by
  simp [h.name_word key hkey c hmem] at hc

theorem Documented.parseKey_name :
    gdk.parseKey (gdk.keyvalName (gdk.keyvalToLower key)) = gdk.keyvalToLower key := by
  have hword : ∀ c ∈ gdk.keyvalName (gdk.keyvalToLower key), isSpace c = false := by
    intro c hc
    have hspaces : ∀ c : UInt8, isSpace c = true → isWordByte c = false := by
      intro c hc
      simp only [isSpace, Bool.or_eq_true, beq_iff_eq] at hc
      rcases hc with (((rfl | rfl) | rfl) | rfl) | rfl <;> decide
    exact Bool.eq_false_of_not_eq_true fun hspace => h.not_mem_name hkey (hspaces c hspace) hc
  have hname := h.keyByName_name hkey
  unfold parseKey
  rw [strip_of_not_space hword]
  split
  · exact absurd ‹_› (h.name_ne_nil key hkey)
  · rename_i sym hsym
    rw [← hsym, hname, if_neg (h.lower_ne key hkey).1]
  · exact hname

include hmods

/-- The parser of `set_accel` reads what GTK writes. -/
theorem Documented.acceleratorParse_name :
    gdk.acceleratorParse (gdk.acceleratorName key mods) = (gdk.keyvalToLower key, mods) := by
  have hhead : (gdk.keyvalName (gdk.keyvalToLower key)).head? ≠ some less := fun heq =>
    h.not_mem_name hkey (by decide) (List.mem_of_mem_head? heq)
  rw [h.acceleratorName_eq key mods hkey, acceleratorParse, nameOf,
    parseFrom_brackets fun m => mem_knownModifiers hmods, foldl_filter hmods,
    parseFrom_of_ne_less (h.name_ne_nil key hkey) hhead, h.keyByName_name hkey]

/-- The parser of what users write reads it too. -/
theorem Documented.accelParse_name :
    gdk.accelParse (gdk.acceleratorName key mods) = some (gdk.keyvalToLower key, mods) := by
  have hparse := h.acceleratorParse_name hkey hmods
  have hfound : gdk.found (gdk.keyvalToLower key) mods = some (gdk.keyvalToLower key, mods) := by
    rw [found, if_neg (h.lower_ne key hkey).1, h.lower_lower key hkey]
  rw [h.acceleratorName_eq key mods hkey] at hparse ⊢
  cases hwritten : gtkModifiers.filter fun m => mods.testBit m.1 with
  | nil =>
    -- without modifiers it is the name of the key
    have hzero : mods = 0 := by
      have hfold := foldl_filter hmods
      rw [hwritten] at hfold
      exact hfold.symm
    have hname : gdk.nameOf key mods = gdk.keyvalName (gdk.keyvalToLower key) := by
      rw [nameOf, hwritten, List.flatMap_nil, List.nil_append]
    have hnone {c : UInt8} (hc : isWordByte c = false) :
        c ∉ (gdk.keyvalName (gdk.keyvalToLower key)).dropLast := fun hmem =>
      h.not_mem_name hkey hc (List.dropLast_subset _ hmem)
    have hhead : (gdk.keyvalName (gdk.keyvalToLower key)).head? ≠ some less := fun heq =>
      h.not_mem_name hkey (by decide) (List.mem_of_mem_head? heq)
    rw [hname, accelParse, if_neg (h.name_ne_nil key hkey), if_neg hhead, if_neg (hnone (by decide)),
      if_neg (hnone (by decide)), h.parseKey_name hkey, ite_self, ← hzero, hfound]
  | cons m l =>
    have hname : ∃ rest, gdk.nameOf key mods = less :: (m.2 ++ greater :: rest) := by
      rw [nameOf, hwritten]
      exact ⟨l.flatMap (fun m => bracket m.2) ++ gdk.keyvalName (gdk.keyvalToLower key), by
        simp [bracket]⟩
    obtain ⟨rest, hrest⟩ := hname
    have hlen : (gdk.nameOf key mods).length ≠ 1 := by simp [hrest]
    have hhead : (gdk.nameOf key mods).head? = some less := by simp [hrest]
    rw [accelParse, if_neg (by simp [hrest]), if_neg hlen, if_pos hhead, hparse, hfound]

end Names

end Gdk

end Medit.Accel
