import Mathlib.Logic.Function.Basic
import Medit.Accel.Parse
import Medit.Library.StringEq

/-!
# Accelerators

An accelerator is kept three times: as a string in `moo_accel_map`, as a string in the preferences,
and as a key with modifiers in the accelerator map of GTK, which is what acts. The preferences may
hold values of an earlier session, and a value that was saved empty has been read as no string.

GTK keeps a key for one path of a group only: a change that replaces takes it from the others.

## Main definitions

* `AccelMap.changeEntry` — `gtk_accel_map_change_entry`, with the paths for which it tells of a change.
* `Accels` — the maps of `mooaccel.cpp`, the preferences and the map of GTK.
* `Accels.setAccel`, `Accels.register`, `Accels.modifyAccel`, `Accels.change`.
* `Accels.step` — the calls, of which `Accels.start` is where they begin.
-/

namespace Medit.Accel

open CString

/-! ## The map of GTK -/

/-- The accelerator map of GTK: the paths with an entry, the key and the modifiers of each, and the
groups that are connected by it. -/
structure AccelMap where
  paths : List AccelString
  entry : AccelString → ℕ × ℕ
  groups : AccelString → List ℕ

namespace AccelMap

def empty : AccelMap := ⟨[], fun _ => (0, 0), fun _ => []⟩

/-- The other paths with an accelerator in a group of the path. -/
def usedBy (map : AccelMap) (path : AccelString) (accel : ℕ × ℕ) : List AccelString :=
  if accel.1 = 0 then []
  else map.paths.filter fun other =>
    other ≠ path ∧ map.entry other = accel ∧ ∃ group ∈ map.groups path, group ∈ map.groups other

/-- `gtk_accel_map_change_entry` -/
def changeEntry (gdk : Gdk) (map : AccelMap) (path : AccelString) (key mods : ℕ) (replace : Bool) :
    AccelMap × List AccelString :=
  let accel := (key, if key = 0 then 0 else mods)
  if ¬ gdk.pathIsValid path then (map, [])
  else if path ∉ map.paths then
    ({ map with paths := path :: map.paths, entry := Function.update map.entry path accel }, [path])
  else if map.entry path = accel then (map, [])
  else
    let used := map.usedBy path accel
    if used ≠ [] ∧ ¬ replace then (map, [])
    else
      ({ map with
          entry := fun q => if q = path then accel else if q ∈ used then (0, 0) else map.entry q },
        used ++ [path])

/-- `gtk_accel_group_connect_by_path` -/
def connect (gdk : Gdk) (map : AccelMap) (path : AccelString) (group : ℕ) : AccelMap :=
  if ¬ gdk.pathIsValid path then map
  else
    { map with
      paths := if path ∈ map.paths then map.paths else path :: map.paths
      groups := Function.update map.groups path (group :: map.groups path) }

/-- A closure goes away, and its connection with it. -/
def disconnect (map : AccelMap) (path : AccelString) (group : ℕ) : AccelMap :=
  { map with groups := Function.update map.groups path ((map.groups path).erase group) }

end AccelMap

/-! ## The three copies -/

/-- `moo_accel_map`, `moo_default_accel_map`, the preferences, of which a registered key has a string
or `NULL`, and the map of GTK. -/
structure Accels where
  accelMap : AccelString → Option AccelString
  defaultMap : AccelString → Option AccelString
  prefs : AccelString → Option (Option AccelString)
  gtk : AccelMap

/-- `accel_path_to_prefs_key`, not for the global flag -/
def accelPathToPrefsKey (path : AccelString) : Option AccelString :=
  let path :=
    if path.head? = some less then
      if 47 ∈ path then (path.dropWhile (· ≠ 47)).tail else []
    else path
  if path = [] then none else some (ascii "Shortcuts/".toList ++ path)

namespace Accels

/-- `prefs_new_accel` -/
def prefsNewAccel (st : Accels) (path defaultAccel : AccelString) : Accels :=
  match accelPathToPrefsKey path with
  | none => st
  | some key =>
    if (st.prefs key).isSome then st
    else { st with prefs := Function.update st.prefs key (some (some defaultAccel)) }

/-- `prefs_get_accel` -/
def prefsGetAccel (st : Accels) (path : AccelString) : Option AccelString :=
  (accelPathToPrefsKey path).bind fun key => (st.prefs key).join

/-- `prefs_set_accel` -/
def prefsSetAccel (st : Accels) (path accel : AccelString) : Accels :=
  match accelPathToPrefsKey path with
  | none => st
  | some key =>
    if (st.prefs key).isSome then
      { st with prefs := Function.update st.prefs key (some (some accel)) }
    else st

/-- `set_accel`, which does not hear of what it changes in the map of GTK. -/
def setAccel (gdk : Gdk) (st : Accels) (path accel : AccelString) (setGtk : Bool) : Accels :=
  if st.accelMap path = some accel then st
  else
    let (key, mods) := gdk.acceleratorParse accel
    let shown := if key = 0 then [] else gdk.acceleratorName key mods
    { st with
      accelMap := Function.update st.accelMap path (some shown)
      gtk := if setGtk then (st.gtk.changeEntry gdk path key mods true).1 else st.gtk }

/-- What an accelerator is taken for by those who set it, or nothing where it cannot be read. -/
def taken (gdk : Gdk) (accel : AccelString) : Option AccelString :=
  if accel = [] then some [] else gdk.normalize accel

/-- `_moo_accel_register` -/
def register (gdk : Gdk) (st : Accels) (path defaultAccel : AccelString) : Accels :=
  if path = [] then st
  else if (st.defaultMap path).isSome then st
  else
    match taken gdk defaultAccel with
    | none => st
    | some defaultAccel =>
      let (key, mods) := gdk.acceleratorParse defaultAccel
      let shown :=
        if defaultAccel = [] then some []
        else if key = 0 then none
        else some (gdk.acceleratorName key mods)
      let st := { st with defaultMap := Function.update st.defaultMap path shown }
      let st := st.prefsNewAccel path defaultAccel
      match st.prefsGetAccel path with
      | none => st
      | some accel => setAccel gdk st path accel true

/-- `moo_modify_accel_real` -/
def modifyAccelReal (gdk : Gdk) (st : Accels) (path newAccel : AccelString) (setGtk : Bool) :
    Accels :=
  if (st.accelMap path).isNone then st
  else
    match taken gdk newAccel with
    | none => st
    | some accel => (setAccel gdk st path accel setGtk).prefsSetAccel path accel

/-- `_moo_modify_accel` -/
def modifyAccel (gdk : Gdk) (st : Accels) (path newAccel : AccelString) : Accels :=
  modifyAccelReal gdk st path newAccel true

/-- `accel_map_changed`. It is connected with the first registration; before, no path has an
accelerator and it would do nothing. -/
def accelMapChanged (gdk : Gdk) (st : Accels) (path : AccelString) : Accels :=
  let (key, mods) := st.gtk.entry path
  modifyAccelReal gdk st path (if key = 0 then [] else gdk.acceleratorName key mods) false

/-- A change in the map of GTK that somebody else makes. -/
def change (gdk : Gdk) (st : Accels) (path : AccelString) (key mods : ℕ) (replace : Bool) : Accels :=
  let (gtk, changed) := st.gtk.changeEntry gdk path key mods replace
  changed.foldl (accelMapChanged gdk) { st with gtk := gtk }

/-! ## Runs -/

/-- What is called. -/
inductive Call where
  | register (path defaultAccel : AccelString)
  | modify (path newAccel : AccelString)
  | change (path : AccelString) (key mods : ℕ) (replace : Bool)
  | connect (path : AccelString) (group : ℕ)
  | disconnect (path : AccelString) (group : ℕ)

def step (gdk : Gdk) (st : Accels) : Call → Accels
  | .register path defaultAccel => st.register gdk path defaultAccel
  | .modify path newAccel => st.modifyAccel gdk path newAccel
  | .change path key mods replace => st.change gdk path key mods replace
  | .connect path group => { st with gtk := st.gtk.connect gdk path group }
  | .disconnect path group => { st with gtk := st.gtk.disconnect path group }

/-- The beginning, with what the preferences have been loaded with. -/
def start (loaded : AccelString → Option (Option AccelString)) : Accels :=
  ⟨fun _ => none, fun _ => none, loaded, .empty⟩

end Accels

end Medit.Accel
