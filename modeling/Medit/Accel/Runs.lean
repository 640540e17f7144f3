import Medit.Accel.Model
import Medit.Library.Machine

/-!
# The copies of an accelerator agree

What medit sets in the map of GTK it does not hear of, so that a key that is taken from another path
stays with that path in the other two copies. Where no key is taken in this way, the copies agree.

## Main definitions

* `Gdk.denotes`, `Gdk.acts` — the key and the modifiers that a string and an entry of GTK stand for.
* `Agrees` — the three copies of a path stand for the same, and the preferences can be read.
* `Fine` — the calls that keep this.

## Main results

* `Accels.accels_agree` — the copies agree in the runs of such calls, and what cannot be parsed
  changes nothing.
* `Accels.accels_drift` — two paths of a group with one key.
-/

namespace Medit.Accel

open CString

namespace Gdk

variable (gdk : Gdk)

/-- The key and the modifiers of a string. -/
def denotes (accel : AccelString) : Option (ℕ × ℕ) :=
  gdk.found (gdk.acceleratorParse accel).1 (gdk.acceleratorParse accel).2

/-- The key and the modifiers of an entry. -/
def acts (entry : ℕ × ℕ) : Option (ℕ × ℕ) := gdk.found entry.1 entry.2

/-- The empty string is no accelerator, and any other has a key. -/
def Readable (accel : AccelString) : Prop := accel = [] ∨ (gdk.acceleratorParse accel).1 ≠ 0

end Gdk

namespace Accels

/-- A path that has been registered. -/
def Registered (st : Accels) (path : AccelString) : Prop := (st.defaultMap path).isSome

instance (st : Accels) (path : AccelString) : Decidable (st.Registered path) :=
  inferInstanceAs (Decidable (_ = true))

/-- The three copies of a path. -/
def Agrees (gdk : Gdk) (st : Accels) (path : AccelString) : Prop :=
  ∃ shown key pref, st.accelMap path = some shown ∧ accelPathToPrefsKey path = some key ∧
    st.prefs key = some (some pref) ∧ gdk.Readable pref ∧ gdk.denotes shown = gdk.denotes pref ∧
      gdk.acts (st.gtk.entry path) = gdk.denotes pref

/-- The key of an accelerator is not taken from a registered path. -/
def TakesNone (st : Accels) (path : AccelString) (accel : ℕ × ℕ) : Prop :=
  st.gtk.entry path = accel ∨ ∀ other ∈ st.gtk.usedBy path accel, ¬ st.Registered other

/-- What the preferences hold for a path that is registered with a default. -/
def prefAt (st : Accels) (key default : AccelString) : Option AccelString :=
  (st.prefs key).getD (some default)

/-- The calls that keep the copies together. -/
def Fine (gdk : Gdk) (st : Accels) : Call → Prop
  | .register path defaultAccel =>
    ∀ default, ¬ st.Registered path → taken gdk defaultAccel = some default →
      gdk.pathIsValid path ∧ ∃ key, accelPathToPrefsKey path = some key ∧
        (∀ other, st.Registered other → accelPathToPrefsKey other ≠ some key) ∧
        ∃ pref, st.prefAt key default = some pref ∧ gdk.Readable pref ∧
          st.TakesNone path (gdk.acceleratorParse pref)
  | .modify path newAccel =>
    ∀ accel, st.Registered path → taken gdk newAccel = some accel →
      st.accelMap path = some accel ∨ st.TakesNone path (gdk.acceleratorParse accel)
  | .change path key mods replace =>
    st.Registered path → path ∈ (st.gtk.changeEntry gdk path key mods replace).2 →
      key ≠ 0 → gdk.Named key ∧ KnownMods mods
  | .connect _ _ => True
  | .disconnect _ _ => True

/-- An accelerator that is given and cannot be parsed. -/
def Unparsed (gdk : Gdk) : Call → Prop
  | .register _ accel => taken gdk accel = none
  | .modify _ accel => taken gdk accel = none
  | .change _ key mods _ => key ≠ 0 ∧ gdk.accelParse (gdk.acceleratorName key mods) = none
  | .connect _ _ => False
  | .disconnect _ _ => False

end Accels

/-! ## Strings -/

section Strings

variable {gdk : Gdk} (h : gdk.Documented)
include h

theorem Gdk.Documented.denotes_name {key mods : ℕ} (hkey : gdk.Named key) (hmods : KnownMods mods) :
    gdk.denotes (gdk.acceleratorName key mods) = gdk.acts (key, mods) := by
  simp only [Gdk.denotes, Gdk.acts, h.acceleratorParse_name hkey hmods, Gdk.found,
    h.lower_lower key hkey, (h.lower_ne key hkey).1, hkey.1, if_false]

theorem Gdk.Documented.readable_name {key mods : ℕ} (hkey : gdk.Named key)
    (hmods : KnownMods mods) : gdk.Readable (gdk.acceleratorName key mods) := by
  right
  rw [h.acceleratorParse_name hkey hmods]
  exact (h.lower_ne key hkey).1

/-- What is taken for an accelerator can be read. -/
theorem readable_of_taken {accel new : AccelString} (htaken : Accels.taken gdk new = some accel) :
    gdk.Readable accel := by
  unfold Accels.taken at htaken
  split_ifs at htaken
  · exact .inl (Option.some.inj htaken).symm
  · obtain ⟨⟨key, mods⟩, hparse, rfl⟩ := Option.map_eq_some_iff.1 htaken
    obtain ⟨hkey, hmods⟩ := h.accelParse_found hparse
    exact h.readable_name hkey hmods

/-- What is shown for an accelerator stands for the same. -/
theorem denotes_shown {accel : AccelString} :
    gdk.denotes (if (gdk.acceleratorParse accel).1 = 0 then []
      else gdk.acceleratorName (gdk.acceleratorParse accel).1 (gdk.acceleratorParse accel).2) =
        gdk.denotes accel := by
  obtain ⟨hmods, hkey⟩ := Gdk.acceleratorParse_found gdk accel
  split_ifs with hzero
  · have hempty : gdk.acceleratorParse [] = (0, 0) := by simp [Gdk.acceleratorParse, Gdk.parseFrom]
    simp [Gdk.denotes, Gdk.found, hempty, hzero]
  · exact h.denotes_name (hkey hzero) hmods

/-- What is taken from the name of an entry stands for the entry. -/
theorem exists_taken_entry {entry : ℕ × ℕ}
    (hentry : entry.1 ≠ 0 → gdk.Named entry.1 ∧ KnownMods entry.2) :
    ∃ accel, Accels.taken gdk (if entry.1 = 0 then [] else gdk.acceleratorName entry.1 entry.2) =
      some accel ∧ gdk.Readable accel ∧ gdk.acts entry = gdk.denotes accel := by
  by_cases hzero : entry.1 = 0
  · refine ⟨[], by simp [hzero, Accels.taken], .inl rfl, ?_⟩
    simp [Gdk.acts, Gdk.denotes, Gdk.found, hzero, Gdk.acceleratorParse, Gdk.parseFrom]
  · obtain ⟨hkey, hmods⟩ := hentry hzero
    have hparse := h.accelParse_name hkey hmods
    have hne : gdk.acceleratorName entry.1 entry.2 ≠ [] := by
      intro hnil
      simp [hnil, Gdk.accelParse] at hparse
    have hlower := h.lower_named hkey
    refine ⟨_, ?_, h.readable_name hlower hmods, ?_⟩
    · rw [if_neg hzero, Accels.taken, if_neg hne, Gdk.normalize, hparse, Option.map_some]
    · rw [h.denotes_name hlower hmods]
      simp [Gdk.acts, Gdk.found, hzero, hlower.1, h.lower_lower _ hkey]

end Strings

/-! ## The map of GTK -/

namespace AccelMap

variable {gdk : Gdk} {map : AccelMap} {path other : AccelString} {key mods : ℕ} {replace : Bool}

theorem entry_changeEntry_self (h : gdk.pathIsValid path) :
    (map.changeEntry gdk path key mods true).1.entry path = (key, if key = 0 then 0 else mods) := by
  simp only [changeEntry, h]
  split_ifs <;> simp_all

/-- An entry of another path changes only if its key is taken. -/
theorem entry_changeEntry_of_ne (hne : other ≠ path)
    (h : map.entry path = (key, if key = 0 then 0 else mods) ∨
      other ∉ map.usedBy path (key, if key = 0 then 0 else mods)) :
    (map.changeEntry gdk path key mods replace).1.entry other = map.entry other := by
  unfold changeEntry
  extract_lets accel used
  split_ifs with hvalid hold hsame hused
  · rfl
  · rfl
  · simpa only [hne, if_false] using if_neg (h.resolve_left hsame)
  · simp [hne]
  · rfl

/-- What GTK tells of. -/
theorem entry_changeEntry (hmem : other ∉ (map.changeEntry gdk path key mods replace).2) :
    (map.changeEntry gdk path key mods replace).1.entry other = map.entry other := by
  unfold changeEntry at hmem ⊢
  extract_lets at hmem ⊢
  split_ifs at hmem ⊢ <;> simp_all

/-- The entry that is changed, and those that are taken away for it. -/
theorem entry_changed (hmem : other ∈ (map.changeEntry gdk path key mods replace).2) :
    (map.changeEntry gdk path key mods replace).1.entry other =
      if other = path then (key, if key = 0 then 0 else mods) else (0, 0) := by
  simp only [changeEntry] at hmem ⊢
  split_ifs at hmem ⊢ <;> simp_all

/-- What is taken away is the same accelerator. -/
theorem entry_of_changed (hmem : other ∈ (map.changeEntry gdk path key mods replace).2)
    (hne : other ≠ path) : map.entry other = (key, if key = 0 then 0 else mods) := by
  unfold changeEntry at hmem
  extract_lets accel used at hmem
  split_ifs at hmem
  · simp at hmem
  · simp at hmem
  · have hused : other ∈ used := by simpa [hne] using hmem
    unfold used usedBy at hused
    split_ifs at hused
    · simp at hused
    · exact (of_decide_eq_true (List.mem_filter.1 hused).2).2.1
  · exact absurd (by simpa using hmem) hne
  · simp at hmem

end AccelMap

/-! ## One step -/

namespace Accels

variable {gdk : Gdk} {st : Accels} {late : AccelString → Prop}

/-- The copies agree but for those that GTK has yet to tell of. -/
structure Sound (gdk : Gdk) (st : Accels) (late : AccelString → Prop) : Prop where
  registered : ∀ path, (st.accelMap path).isSome ↔ st.Registered path
  valid : ∀ path, st.Registered path → gdk.pathIsValid path
  pref : ∀ path, st.Registered path →
    ∃ key, accelPathToPrefsKey path = some key ∧ (st.prefs key).isSome
  keys : ∀ path other, st.Registered path → st.Registered other →
    accelPathToPrefsKey path = accelPathToPrefsKey other → path = other
  entry : ∀ path, st.Registered path → (st.gtk.entry path).1 ≠ 0 →
    gdk.Named (st.gtk.entry path).1 ∧ KnownMods (st.gtk.entry path).2
  agrees : ∀ path, st.Registered path → ¬ late path → Agrees gdk st path

theorem Sound.mono {late' : AccelString → Prop} (hs : Sound gdk st late)
    (h : ∀ path, st.Registered path → late path → late' path) : Sound gdk st late' where
  registered := hs.registered
  valid := hs.valid
  pref := hs.pref
  keys := hs.keys
  entry := hs.entry
  agrees path hpath hlate := hs.agrees path hpath fun hold => hlate (h path hpath hold)

/-- One path gets its three copies anew. -/
theorem Sound.put (hs : Sound gdk st late) {path key shown pref : AccelString}
    (default : AccelString)
    {gtk : AccelMap} (hvalid : gdk.pathIsValid path) (hkey : accelPathToPrefsKey path = some key)
    (hown : ∀ other, st.Registered other → accelPathToPrefsKey other = some key → other = path)
    (hread : gdk.Readable pref) (hshown : gdk.denotes shown = gdk.denotes pref)
    (hacts : gdk.acts (gtk.entry path) = gdk.denotes pref)
    (hentry : (gtk.entry path).1 ≠ 0 →
      gdk.Named (gtk.entry path).1 ∧ KnownMods (gtk.entry path).2)
    (hframe : ∀ other, st.Registered other → other ≠ path →
      gtk.entry other = st.gtk.entry other) :
    Sound gdk
      ⟨Function.update st.accelMap path (some shown),
        Function.update st.defaultMap path (some default),
        Function.update st.prefs key (some (some pref)), gtk⟩
      (fun other => late other ∧ other ≠ path) := by
  have hreg {other : AccelString} (hne : other ≠ path) :
      (Function.update st.defaultMap path (some default) other).isSome ↔ st.Registered other := by
    rw [Function.update_of_ne hne]
    rfl
  have hprefs {other key' : AccelString} (hne : other ≠ path) (hother : st.Registered other)
      (hkey' : accelPathToPrefsKey other = some key') : key' ≠ key := by
    rintro rfl
    exact hne (hown other hother hkey')
  constructor
  · intro other
    by_cases hne : other = path
    · simp [Registered, hne]
    · simp only [Registered, Function.update_of_ne hne]
      exact hs.registered other
  · intro other hother
    by_cases hne : other = path
    · exact hne ▸ hvalid
    · exact hs.valid other ((hreg hne).1 hother)
  · intro other hother
    by_cases hne : other = path
    · exact ⟨key, hne ▸ hkey, by simp⟩
    · obtain ⟨key', hkey', hsome⟩ := hs.pref other ((hreg hne).1 hother)
      refine ⟨key', hkey', ?_⟩
      simp only [Function.update_of_ne (hprefs hne ((hreg hne).1 hother) hkey')]
      exact hsome
  · intro other other' hother hother' heq
    by_cases hne : other = path
    · by_cases hne' : other' = path
      · rw [hne, hne']
      · rw [hne, hown other' ((hreg hne').1 hother') (by rw [← heq, hne, hkey])]
    · by_cases hne' : other' = path
      · rw [hne', hown other ((hreg hne).1 hother) (by rw [heq, hne', hkey])]
      · exact hs.keys other other' ((hreg hne).1 hother) ((hreg hne').1 hother') heq
  · intro other hother
    by_cases hne : other = path
    · exact hne ▸ hentry
    · simp only [hframe other ((hreg hne).1 hother) hne]
      exact hs.entry other ((hreg hne).1 hother)
  · intro other hother hlate
    by_cases hne : other = path
    · subst hne
      exact ⟨shown, key, pref, by simp, hkey, by simp, hread, hshown, hacts⟩
    · have hregistered := (hreg hne).1 hother
      obtain ⟨shown', key', pref', hmap, hkey', hpref, hread', hshown', hacts'⟩ :=
        hs.agrees other hregistered fun hold => hlate ⟨hold, hne⟩
      refine ⟨shown', key', pref', ?_, hkey', ?_, hread', hshown', ?_⟩
      · simpa only [Function.update_of_ne hne] using hmap
      · simpa only [Function.update_of_ne (hprefs hne hregistered hkey')] using hpref
      · simpa only [hframe other hregistered hne] using hacts'

variable {path accel : AccelString}

theorem setAccel_of_eq (hsame : st.accelMap path = some accel) (setGtk : Bool) :
    setAccel gdk st path accel setGtk = st := by
  rw [setAccel, if_pos hsame]

theorem setAccel_of_ne (hsame : st.accelMap path ≠ some accel) (setGtk : Bool) :
    setAccel gdk st path accel setGtk =
      { st with
        accelMap := Function.update st.accelMap path (some
          (if (gdk.acceleratorParse accel).1 = 0 then []
            else gdk.acceleratorName (gdk.acceleratorParse accel).1 (gdk.acceleratorParse accel).2))
        gtk :=
          if setGtk then
            (st.gtk.changeEntry gdk path (gdk.acceleratorParse accel).1
              (gdk.acceleratorParse accel).2 true).1
          else st.gtk } := by
  rw [setAccel, if_neg hsame]

/-- What `set_accel` shows stands for what it is given. -/
theorem exists_setAccel (h : gdk.Documented) (setGtk : Bool) :
    ∃ shown, gdk.denotes shown = gdk.denotes accel ∧
      setAccel gdk st path accel setGtk =
        ⟨Function.update st.accelMap path (some shown), st.defaultMap, st.prefs,
          (setAccel gdk st path accel setGtk).gtk⟩ := by
  by_cases hsame : st.accelMap path = some accel
  · exact ⟨accel, rfl, by rw [setAccel_of_eq hsame, ← hsame, Function.update_eq_self]⟩
  · exact ⟨_, denotes_shown h, by rw [setAccel_of_ne hsame]⟩

/-- The entry of another path stays if its key is not taken. -/
theorem gtk_setAccel {other : AccelString} (hne : other ≠ path)
    (hnone : st.accelMap path = some accel ∨ st.gtk.entry path = gdk.acceleratorParse accel ∨
      other ∉ st.gtk.usedBy path (gdk.acceleratorParse accel)) (hread : gdk.Readable accel) :
    (setAccel gdk st path accel true).gtk.entry other = st.gtk.entry other := by
  by_cases hsame : st.accelMap path = some accel
  · rw [setAccel_of_eq hsame]
  · have hmods : (gdk.acceleratorParse accel).1 = 0 → (gdk.acceleratorParse accel).2 = 0 := by
      intro hzero
      obtain rfl := hread.resolve_right fun hne => hne hzero
      simp [Gdk.acceleratorParse, Gdk.parseFrom]
    have haccel : ((gdk.acceleratorParse accel).1,
        if (gdk.acceleratorParse accel).1 = 0 then 0 else (gdk.acceleratorParse accel).2) =
          gdk.acceleratorParse accel := by
      split_ifs with hzero
      · rw [← hmods hzero]
      · rfl
    rw [setAccel_of_ne hsame, if_pos rfl]
    refine AccelMap.entry_changeEntry_of_ne hne ?_
    rw [haccel]
    exact hnone.resolve_left hsame

/-- The entry of the path is what `set_accel` is given. -/
theorem gtk_setAccel_self (hvalid : gdk.pathIsValid path)
    (hsame : st.accelMap path = some accel → gdk.acts (st.gtk.entry path) = gdk.denotes accel ∧
      ((st.gtk.entry path).1 ≠ 0 →
        gdk.Named (st.gtk.entry path).1 ∧ KnownMods (st.gtk.entry path).2)) :
    let entry := (setAccel gdk st path accel true).gtk.entry path
    gdk.acts entry = gdk.denotes accel ∧ (entry.1 ≠ 0 → gdk.Named entry.1 ∧ KnownMods entry.2) := by
  by_cases hold : st.accelMap path = some accel
  · rw [setAccel_of_eq hold]
    exact hsame hold
  · obtain ⟨hmods, hkey⟩ := Gdk.acceleratorParse_found gdk accel
    simp only [setAccel_of_ne hold, if_true, AccelMap.entry_changeEntry_self hvalid]
    refine ⟨?_, fun hne => ⟨hkey hne, ?_⟩⟩
    · by_cases hzero : (gdk.acceleratorParse accel).1 = 0 <;>
        simp [Gdk.acts, Gdk.denotes, Gdk.found, hzero]
    · simpa only [hne, if_false] using hmods

/-- A registered path gets an accelerator, and the map of GTK has it. -/
theorem Sound.set (h : gdk.Documented) (hs : Sound gdk st late) (hpath : st.Registered path)
    (hread : gdk.Readable accel) {setGtk : Bool}
    (hacts : gdk.acts ((setAccel gdk st path accel setGtk).gtk.entry path) = gdk.denotes accel)
    (hentry : ((setAccel gdk st path accel setGtk).gtk.entry path).1 ≠ 0 →
      gdk.Named ((setAccel gdk st path accel setGtk).gtk.entry path).1 ∧
        KnownMods ((setAccel gdk st path accel setGtk).gtk.entry path).2)
    (hframe : ∀ other, st.Registered other → other ≠ path →
      (setAccel gdk st path accel setGtk).gtk.entry other = st.gtk.entry other) :
    Sound gdk ((setAccel gdk st path accel setGtk).prefsSetAccel path accel)
      (fun other => late other ∧ other ≠ path) := by
  obtain ⟨shown, hshown, heq⟩ := @exists_setAccel gdk st path accel h setGtk
  obtain ⟨key, hkey, hsome⟩ := hs.pref path hpath
  obtain ⟨default, hdefault⟩ := Option.isSome_iff_exists.1 hpath
  have hput := hs.put default (hs.valid path hpath) hkey
    (fun other hother hkey' => hs.keys other path hother hpath (hkey'.trans hkey.symm))
    hread hshown hacts hentry hframe
  have hresult : (setAccel gdk st path accel setGtk).prefsSetAccel path accel =
      ⟨Function.update st.accelMap path (some shown), st.defaultMap,
        Function.update st.prefs key (some (some accel)),
        (setAccel gdk st path accel setGtk).gtk⟩ := by
    rw [heq]
    simp [prefsSetAccel, hkey, hsome]
  rw [hresult]
  rwa [← hdefault, Function.update_eq_self] at hput

/-- What a copy that agrees has for an accelerator that is shown already. -/
theorem Sound.same (hs : Sound gdk st fun _ => False) (hpath : st.Registered path)
    (hsame : st.accelMap path = some accel) :
    gdk.acts (st.gtk.entry path) = gdk.denotes accel ∧ ((st.gtk.entry path).1 ≠ 0 →
      gdk.Named (st.gtk.entry path).1 ∧ KnownMods (st.gtk.entry path).2) := by
  obtain ⟨shown, key, pref, hmap, -, -, -, hshown, hacts⟩ := hs.agrees path hpath id
  obtain rfl : accel = shown := Option.some.inj (hsame.symm.trans hmap)
  exact ⟨hacts.trans hshown.symm, hs.entry path hpath⟩

theorem Sound.modify (h : gdk.Documented) (hs : Sound gdk st fun _ => False)
    {newAccel : AccelString} (hfine : Fine gdk st (.modify path newAccel)) :
    Sound gdk (st.modifyAccel gdk path newAccel) fun _ => False := by
  unfold modifyAccel modifyAccelReal
  split_ifs with hnone
  · exact hs
  · have hpath : st.Registered path := (hs.registered path).1 (by
      simpa [Option.isSome_iff_ne_none] using hnone)
    cases htaken : taken gdk newAccel with
    | none => exact hs
    | some accel =>
      have hread := readable_of_taken h htaken
      have hself := @gtk_setAccel_self gdk st path accel (hs.valid path hpath) (hs.same hpath)
      refine (hs.set h hpath hread hself.1 hself.2 fun other hother hne => ?_).mono
        fun _ _ hlate => hlate.1
      refine gtk_setAccel hne ((hfine accel hpath htaken).imp_right fun htakes => ?_) hread
      exact htakes.imp_right fun hall hmem => hall other hmem hother

/-- GTK tells of a change, and the other copies follow. -/
theorem Sound.accelMapChanged (h : gdk.Documented) (hs : Sound gdk st late) :
    Sound gdk (st.accelMapChanged gdk path) fun other => late other ∧ other ≠ path := by
  by_cases hnone : (st.accelMap path).isNone
  · have hsame : st.accelMapChanged gdk path = st := if_pos hnone
    rw [hsame]
    refine hs.mono fun other hother hlate => ⟨hlate, ?_⟩
    rintro rfl
    have hsome := (hs.registered other).2 hother
    simp_all
  · have hpath : st.Registered path := (hs.registered path).1 (by
      simpa [Option.isSome_iff_ne_none] using hnone)
    obtain ⟨accel, htaken, hread, hacts⟩ := exists_taken_entry h (hs.entry path hpath)
    have hresult : st.accelMapChanged gdk path =
        (setAccel gdk st path accel false).prefsSetAccel path accel := by
      simp only [Accels.accelMapChanged, modifyAccelReal, hnone, htaken]
      rfl
    have hgtk : (setAccel gdk st path accel false).gtk = st.gtk := by
      by_cases hsame : st.accelMap path = some accel
      · rw [setAccel_of_eq hsame]
      · rw [setAccel_of_ne hsame]
        rfl
    rw [hresult]
    refine hs.set h hpath hread ?_ ?_ fun other _ _ => ?_
    · rwa [hgtk]
    · rw [hgtk]
      exact hs.entry path hpath
    · rw [hgtk]

theorem Sound.told (h : gdk.Documented) {changed : List AccelString}
    (hs : Sound gdk st (· ∈ changed)) :
    Sound gdk (changed.foldl (Accels.accelMapChanged gdk) st) fun _ => False := by
  induction changed generalizing st with
  | nil => exact hs.mono fun _ _ hmem => by simp at hmem
  | cons path changed ih =>
    refine ih ((hs.accelMapChanged h).mono fun other _ hlate => ?_)
    exact (List.mem_cons.1 hlate.1).resolve_left hlate.2

/-- Before GTK has told of a change, the copies of what it has changed are late. -/
theorem Sound.heard (hs : Sound gdk st fun _ => False) {key mods : ℕ} {replace : Bool}
    (hfine : Fine gdk st (.change path key mods replace)) :
    Sound gdk { st with gtk := (st.gtk.changeEntry gdk path key mods replace).1 }
      (· ∈ (st.gtk.changeEntry gdk path key mods replace).2) where
  registered := hs.registered
  valid := hs.valid
  pref := hs.pref
  keys := hs.keys
  entry other hother := by
    by_cases hmem : other ∈ (st.gtk.changeEntry gdk path key mods replace).2
    · simp only [AccelMap.entry_changed hmem]
      by_cases heq : other = path
      · subst heq
        intro hne
        simpa only [if_true, if_neg (by simpa using hne : key ≠ 0)] using
          hfine hother hmem (by simpa using hne)
      · simp [heq]
    · simp only [AccelMap.entry_changeEntry hmem]
      exact hs.entry other hother
  agrees other hother hlate := by
    obtain ⟨shown, key', pref, hmap, hkey, hpref, hread, hshown, hacts⟩ :=
      hs.agrees other hother id
    refine ⟨shown, key', pref, hmap, hkey, hpref, hread, hshown, ?_⟩
    simpa only [AccelMap.entry_changeEntry hlate] using hacts

theorem Sound.change (h : gdk.Documented) (hs : Sound gdk st fun _ => False) {key mods : ℕ}
    {replace : Bool} (hfine : Fine gdk st (.change path key mods replace)) :
    Sound gdk (st.change gdk path key mods replace) fun _ => False :=
  (hs.heard hfine).told h

theorem Sound.register (h : gdk.Documented) (hs : Sound gdk st fun _ => False)
    {defaultAccel : AccelString} (hfine : Fine gdk st (.register path defaultAccel)) :
    Sound gdk (st.register gdk path defaultAccel) fun _ => False := by
  unfold Accels.register
  split_ifs with hnil hold
  · exact hs
  · exact hs
  · cases htaken : taken gdk defaultAccel with
    | none => exact hs
    | some default =>
      obtain ⟨hvalid, key, hkey, hown, pref, hpref, hread, htakes⟩ := hfine default hold htaken
      have hdefault := readable_of_taken h htaken
      have hnew : st.accelMap path = none := by
        simpa [Option.isSome_iff_ne_none] using mt (hs.registered path).1 hold
      obtain ⟨shown, hshown⟩ : ∃ shown, (if default = [] then some []
          else if (gdk.acceleratorParse default).1 = 0 then none
          else some (gdk.acceleratorName (gdk.acceleratorParse default).1
            (gdk.acceleratorParse default).2)) = some shown := by
        rcases hdefault with hempty | hkey
        · exact ⟨[], if_pos hempty⟩
        · simp only [hkey, if_false]
          split_ifs <;> exact ⟨_, rfl⟩
      let st' : Accels := ⟨st.accelMap, Function.update st.defaultMap path (some shown),
        Function.update st.prefs key (some (some pref)), st.gtk⟩
      have hprefs : Accels.prefsNewAccel
          { st with defaultMap := Function.update st.defaultMap path (some shown) } path default =
            st' := by
        simp only [prefsNewAccel, hkey, st']
        cases hvalue : st.prefs key with
        | none =>
          have heq : default = pref := by simpa [prefAt, hvalue] using hpref
          simp [heq]
        | some value =>
          have heq : value = some pref := by simpa [prefAt, hvalue] using hpref
          have hsame : Function.update st.prefs key (some (some pref)) = st.prefs := by
            rw [← heq, ← hvalue, Function.update_eq_self]
          simp [hsame]
      have hget : st'.prefsGetAccel path = some pref := by simp [prefsGetAccel, hkey, st']
      simp only [hshown, hprefs, hget]
      obtain ⟨shown', hshown', heq⟩ := @exists_setAccel gdk st' path pref h true
      have hself := @gtk_setAccel_self gdk st' path pref hvalid fun hsame =>
        absurd (hnew.symm.trans hsame) (by simp)
      rw [heq]
      refine (hs.put _ hvalid hkey (fun other hother hkey' => absurd hkey' (hown other hother)) hread
        hshown' hself.1 hself.2 fun other hother hne => ?_).mono fun _ _ hlate => hlate.1
      refine @gtk_setAccel gdk st' path pref other hne (.inr ?_) hread
      exact htakes.imp_right fun hall hmem => hall other hmem hother

theorem Sound.step (h : gdk.Documented) (hs : Sound gdk st fun _ => False) {call : Call}
    (hfine : Fine gdk st call) : Sound gdk (st.step gdk call) fun _ => False := by
  cases call with
  | register path defaultAccel => exact hs.register h hfine
  | modify path newAccel => exact hs.modify h hfine
  | change path key mods replace => exact hs.change h hfine
  | connect path group =>
    have hentry : (st.gtk.connect gdk path group).entry = st.gtk.entry := by
      unfold AccelMap.connect
      split_ifs <;> rfl
    refine ⟨hs.registered, hs.valid, hs.pref, hs.keys, fun other hother => ?_,
      fun other hother hlate => ?_⟩
    · simpa only [Accels.step, hentry] using hs.entry other hother
    · simpa only [Agrees, Accels.step, hentry] using hs.agrees other hother hlate
  | disconnect path group =>
    exact ⟨hs.registered, hs.valid, hs.pref, hs.keys, hs.entry, hs.agrees⟩

theorem sound_start (gdk : Gdk) (loaded : AccelString → Option (Option AccelString)) :
    Sound gdk (start loaded) fun _ => False := by
  have hnone : ∀ path, ¬ (start loaded).Registered path := by simp [Registered, start]
  constructor <;> simp [hnone]
  simp [start]

/-! ## Main results -/

/-- What there is of a path in the three places. -/
def copies (st : Accels) (path : AccelString) :
    Option AccelString × Option (Option AccelString) × (ℕ × ℕ) :=
  (st.accelMap path, (accelPathToPrefsKey path).bind st.prefs, st.gtk.entry path)

/-- A change of GTK that cannot be parsed is none of a registered path. -/
theorem Sound.not_changed (h : gdk.Documented) (hs : Sound gdk st fun _ => False) {key mods : ℕ}
    {replace : Bool} (hfine : Fine gdk st (.change path key mods replace))
    (hunparsed : Unparsed gdk (.change path key mods replace)) {other : AccelString}
    (hother : st.Registered other) :
    other ∉ (st.gtk.changeEntry gdk path key mods replace).2 := by
  obtain ⟨hkey, hnone⟩ := hunparsed
  have hknown : ¬ (gdk.Named key ∧ KnownMods mods) := fun hnamed => by
    simp [h.accelParse_name hnamed.1 hnamed.2] at hnone
  intro hmem
  by_cases heq : other = path
  · subst heq
    exact hknown (hfine hother hmem hkey)
  · have hentry := AccelMap.entry_of_changed hmem heq
    refine hknown ?_
    simpa [hentry, hkey] using hs.entry other hother

theorem Sound.copies_step (h : gdk.Documented) (hs : Sound gdk st fun _ => False) {call : Call}
    (hfine : Fine gdk st call) (hcall : Unparsed gdk call) (hpath : st.Registered path) :
    (st.step gdk call).copies path = st.copies path := by
  cases call with
  | register other defaultAccel =>
    have hnone : taken gdk defaultAccel = none := hcall
    have hstep : st.register gdk other defaultAccel = st := by
      unfold Accels.register
      split_ifs <;> simp [hnone]
    simp only [Accels.step, hstep]
  | modify other newAccel =>
    have hnone : taken gdk newAccel = none := hcall
    have hstep : st.modifyAccel gdk other newAccel = st := by
      unfold modifyAccel modifyAccelReal
      split_ifs <;> simp [hnone]
    simp only [Accels.step, hstep]
  | change other key mods replace =>
    have hnot {q : AccelString} (hq : st.Registered q) := hs.not_changed h hfine hcall hq
    have hquiet : ∀ q ∈ (st.gtk.changeEntry gdk other key mods replace).2, st.accelMap q = none := by
      intro q hmem
      refine Option.not_isSome_iff_eq_none.1 fun hsome => ?_
      exact hnot ((hs.registered q).1 hsome) hmem
    have htold : st.change gdk other key mods replace =
        { st with gtk := (st.gtk.changeEntry gdk other key mods replace).1 } := by
      refine List.foldlRecOn (motive := fun s => s = _) _ _ rfl fun s hs q hq => ?_
      rw [hs]
      exact if_pos (by simp [hquiet q hq])
    simp only [Accels.step, htold, copies, AccelMap.entry_changeEntry (hnot hpath)]
  | connect other group => exact hcall.elim
  | disconnect other group => exact hcall.elim

/-- The states that the calls lead to. -/
def Reached (gdk : Gdk) (loaded : AccelString → Option (Option AccelString)) : Accels → Prop :=
  Machine.Reachable (Accels.step gdk) (Fine gdk) (start loaded)

theorem Reached.step {loaded : AccelString → Option (Option AccelString)} (hst : Reached gdk loaded st)
    {call : Call} (hfine : Fine gdk st call) : Reached gdk loaded (st.step gdk call) :=
  Machine.Reachable.step hst hfine

/-- In every run of calls that keep the copies together, the three copies of each registered path
stand for the same key and modifiers, and what the preferences have can be read. An accelerator that
cannot be parsed changes nothing. -/
theorem accels_agree (h : gdk.Documented) {loaded : AccelString → Option (Option AccelString)}
    (hst : Reached gdk loaded st) :
    (∀ path, st.Registered path → Agrees gdk st path) ∧
      ∀ call, Fine gdk st call → Unparsed gdk call →
        ∀ path, st.Registered path → (st.step gdk call).copies path = st.copies path := by
  have hs : Sound gdk st fun _ => False :=
    Machine.Reachable.invariant (P := fun st => Sound gdk st fun _ => False) hst
      (sound_start gdk loaded) fun _ _ hfine hs => hs.step h hfine
  exact ⟨fun path hpath => hs.agrees path hpath id, fun call hfine hcall path hpath =>
    hs.copies_step h hfine hcall hpath⟩

end Accels

/-! ## A keyboard -/

/-- The keys of ASCII with their names. -/
def asciiKeys : List (AccelString × ℕ) :=
  (List.range' 48 10 ++ List.range' 65 26 ++ List.range' 97 26).map (fun c => ([c.toUInt8], c)) ++
    symbols.zipWith (fun sym name => (ascii name, sym.toNat))
      ["exclam".toList, "quotedbl".toList, "numbersign".toList, "dollar".toList, "percent".toList,
        "ampersand".toList, "apostrophe".toList, "parenleft".toList, "parenright".toList,
        "asterisk".toList, "plus".toList, "comma".toList, "minus".toList, "period".toList,
        "slash".toList, "colon".toList, "semicolon".toList, "less".toList, "equal".toList,
        "greater".toList, "question".toList, "at".toList, "bracketleft".toList, "backslash".toList,
        "bracketright".toList, "underscore".toList, "grave".toList, "braceleft".toList, "bar".toList,
        "braceright".toList, "asciitilde".toList]

/-- A keyboard with these keys, and paths as GTK takes them. -/
def asciiGdk : Gdk where
  keyvalFromName name := (asciiKeys.lookup name).getD keyVoidSymbol
  keyvalName key := ((asciiKeys.find? (·.2 = key)).map (·.1)).getD []
  keyvalToLower key := if 65 ≤ key ∧ key ≤ 90 then key + 32 else key
  acceleratorName key mods :=
    (gtkModifiers.filter fun m => mods.testBit m.1).flatMap (fun m => bracket m.2) ++
      ((asciiKeys.find? (·.2 = if 65 ≤ key ∧ key ≤ 90 then key + 32 else key)).map (·.1)).getD []
  pathIsValid path := path.head? = some less && (path.dropWhile (· ≠ greater)).tail.head? = some 47

theorem mem_asciiKeys {key : ℕ} (h : asciiGdk.Named key) : key ∈ asciiKeys.map (·.2) := by
  obtain ⟨-, hvoid, name, rfl⟩ := h
  simp only [asciiGdk] at hvoid ⊢
  cases hlookup : asciiKeys.lookup name with
  | none => exact absurd (by simp [hlookup]) hvoid
  | some key =>
    obtain ⟨l₁, l₂, heq, -⟩ := List.lookup_eq_some_iff.1 hlookup
    rw [heq]
    simp

/-- The name of each of these keys in lower case. -/
theorem lower_asciiGdk {key : ℕ} (h : asciiGdk.Named key) :
    let lower := asciiGdk.keyvalToLower key
    let name := asciiGdk.keyvalName lower
    asciiGdk.keyvalFromName name = lower ∧ name ≠ [] ∧ name.all isWordByte = true ∧ lower ≠ 0 ∧
      lower ≠ keyVoidSymbol := by
  have hall : ∀ key ∈ asciiKeys.map (·.2),
      let lower := asciiGdk.keyvalToLower key
      let name := asciiGdk.keyvalName lower
      asciiGdk.keyvalFromName name = lower ∧ name ≠ [] ∧ name.all isWordByte = true ∧ lower ≠ 0 ∧
        lower ≠ keyVoidSymbol := by
    decide +kernel
  exact hall key (mem_asciiKeys h)

theorem symbols_asciiKeys :
    (symbols.all fun sym => asciiKeys.any fun k => decide (k.2 = sym.toNat) &&
      decide (asciiKeys.lookup k.1 = some k.2) && k.2 ≠ 0 && k.2 ≠ keyVoidSymbol) = true := by
  decide

theorem documented_asciiGdk : asciiGdk.Documented where
  acceleratorName_eq _ _ _ := rfl
  fromName_name _ hkey := (lower_asciiGdk hkey).1
  name_ne_nil _ hkey := (lower_asciiGdk hkey).2.1
  name_word _ hkey := List.all_eq_true.1 (lower_asciiGdk hkey).2.2.1
  lower_ne _ hkey := (lower_asciiGdk hkey).2.2.2
  lower_lower key hkey := by
    simp only [asciiGdk]
    split_ifs <;> omega
  symbol_named sym hsym := by
    obtain ⟨⟨name, key⟩, -, hkey⟩ :=
      List.any_eq_true.1 (List.all_eq_true.1 symbols_asciiKeys sym hsym)
    simp only [Bool.and_eq_true, decide_eq_true_eq] at hkey
    obtain ⟨⟨⟨rfl, hlookup⟩, hne⟩, hvoid⟩ := hkey
    exact ⟨by simpa using hne, by simpa using hvoid, name, by simp [asciiGdk, hlookup]⟩

namespace Accels

def openPath : AccelString := ascii "<MooAction>/Editor/Open".toList

def savePath : AccelString := ascii "<MooAction>/Editor/Save".toList

/-- Opening gets a key when it is registered, and another one from the user. -/
theorem accels_agree_open :
    let st := (start fun _ => none).register asciiGdk openPath (ascii "Ctrl+O".toList)
    let st' := st.modifyAccel asciiGdk openPath (ascii "Alt-o".toList)
    st'.Registered openPath ∧ st'.accelMap openPath = some (ascii "<Alt>o".toList) ∧
      Agrees asciiGdk st' openPath := by
  intro st st'
  have hregister : Fine asciiGdk (start fun _ => none)
      (.register openPath (ascii "Ctrl+O".toList)) := by
    intro default _ htaken
    obtain rfl : ascii "<Primary>o".toList = default := Option.some.inj
      (Eq.trans (by decide) htaken)
    refine ⟨by decide, ascii "Shortcuts/Editor/Open".toList, by decide,
      fun other hother => ?_, _, rfl, .inr (by decide +kernel), .inr fun _ _ => ?_⟩ <;>
    simp_all [Registered, start]
  have hmodify : Fine asciiGdk st (.modify openPath (ascii "Alt-o".toList)) := by
    intro accel _ htaken
    obtain rfl : ascii "<Alt>o".toList = accel := Option.some.inj
      (Eq.trans (by decide) htaken)
    have hnone : st.gtk.usedBy openPath (asciiGdk.acceleratorParse (ascii "<Alt>o".toList)) = [] := by
      decide +kernel
    refine .inr (.inr fun other hother => ?_)
    rw [hnone] at hother
    exact absurd hother (by simp)
  have hstart : Reached asciiGdk (fun _ => none) (start fun _ => none) := .start
  have hst : Reached asciiGdk (fun _ => none) st' := (hstart.step hregister).step hmodify
  have hregistered : st'.Registered openPath := by decide +kernel
  exact ⟨hregistered, by decide +kernel, (accels_agree documented_asciiGdk hst).1 openPath hregistered⟩

/-- Saving gets the key of opening. GTK takes it from opening, whose string and preferences keep it. -/
theorem accels_drift :
    ¬ ∀ gdk : Gdk, gdk.Documented → ∀ (loaded : AccelString → Option (Option AccelString))
      (calls : List Call) (path : AccelString),
        (calls.foldl (Accels.step gdk) (start loaded)).Registered path →
          Agrees gdk (calls.foldl (Accels.step gdk) (start loaded)) path := by
  intro hall
  let calls : List Call :=
    [.register openPath (ascii "Ctrl+O".toList), .connect openPath 1, .register savePath [],
      .connect savePath 1, .modify savePath (ascii "Ctrl+O".toList)]
  let st := calls.foldl (Accels.step asciiGdk) (start fun _ => none)
  obtain ⟨shown, key, pref, hmap, -, -, -, hshown, hacts⟩ :=
    hall asciiGdk documented_asciiGdk (fun _ => none) calls openPath (by decide +kernel)
  have hold : st.accelMap openPath = some (ascii "<Primary>o".toList) := by decide +kernel
  have htaken : asciiGdk.acts (st.gtk.entry openPath) = none := by decide +kernel
  obtain rfl : shown = ascii "<Primary>o".toList := Option.some.inj (hmap.symm.trans hold)
  have hdenotes : asciiGdk.denotes (ascii "<Primary>o".toList) ≠ none := by decide +kernel
  exact hdenotes (hshown.trans (hacts.symm.trans htaken))

end Accels

end Medit.Accel
