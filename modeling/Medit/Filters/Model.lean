import Mathlib.Data.Int.Notation
import Mathlib.Data.List.Perm.Basic
import Mathlib.Logic.Function.Basic

/-!
# The file filter manager

`moofiltermgr.cpp`: filters shared by the file dialogs of the program, by their globs, and a store
of rows for each kind of dialog. What is kept of the stores is a part of the preferences, which
is written by an idle callback and read when the manager is used first.

## Main definitions

* `FilterStore.addBuiltin`, `FilterStore.addUser` — `filter_store_add_builtin` and
  `filter_store_add_user`.
* `Mgr.newUserFilter`, `Mgr.newBuiltinFilter`, `Mgr.setLast` — what changes a store.
* `Mgr.doSave`, `load` — `mgr_do_save` and `mgr_load`, by way of the nodes under `Editor/filters`.
-/

namespace Medit.Filters

open Function

abbrev Str := List Char

/-! ## Filters -/

/-- A filter has its mark `user` from where it was made first. -/
structure Filter where
  description : Str
  glob : Str
  user : Bool
deriving DecidableEq, Repr

/-- `NUM_USER_FILTERS`. -/
def numUserFilters : ℕ := 5

/-- `ALL_FILES_GLOB`. -/
def allFilesGlob : Str := ['*']

/-- `filter_new`, which takes neither an empty glob nor `NEGATE_CHAR` alone. -/
def filterNew (description glob : Str) (user : Bool) : Option Filter :=
  if glob = [] ∨ glob = ['!'] then none else some ⟨description, glob, user⟩

/-! ## Stores -/

/-- `gtk_list_store_insert`. -/
def insertRow {α : Type*} (rows : List α) (position : ℕ) (row : α) : List α :=
  rows.take position ++ row :: rows.drop position

/-- The rows of a store; one without a filter is a separator. -/
structure FilterStore where
  filters : List (Option Filter)
  lastFilter : Option Filter
  numUser : ℕ
  numBuiltin : ℕ
  hasSeparator : Bool
  maxNumUser : ℕ
deriving DecidableEq, Repr

namespace FilterStore

/-- Where the user filters begin. -/
def offset (store : FilterStore) : ℕ := store.numBuiltin + if store.hasSeparator then 1 else 0

/-- `filter_store_list_user_filters`. -/
def listUserFilters (store : FilterStore) : List Filter :=
  if store.numUser = 0 then [] else (store.filters.drop store.offset).reduceOption

/-- `filter_store_find_builtin`. -/
def findBuiltin (store : FilterStore) (filter : Filter) : Bool :=
  some filter ∈ store.filters.take store.numBuiltin

/-- `filter_store_add_builtin`. -/
def addBuiltin (store : FilterStore) (filter : Filter) (position : ℤ) : FilterStore :=
  let store := { store with lastFilter := some filter }
  if store.findBuiltin filter then store
  else
    let position :=
      if position < 0 ∨ position > store.numBuiltin then store.numBuiltin else position.toNat
    let store := { store with
      filters := insertRow store.filters position (some filter)
      numBuiltin := store.numBuiltin + 1 }
    if store.numUser ≠ 0 ∧ !store.hasSeparator then
      { store with
        filters := insertRow store.filters store.numBuiltin none
        hasSeparator := true }
    else store

/-- `filter_store_find_user`, with the row. -/
def findUser (store : FilterStore) (filter : Filter) : Option ℕ :=
  (((store.filters.drop store.offset).take store.numUser).findIdx? (· = some filter)).map
    (store.offset + ·)

/-- The row of a user filter is removed. -/
def removeUser (store : FilterStore) (row : ℕ) : FilterStore :=
  { store with filters := store.filters.eraseIdx row, numUser := store.numUser - 1 }

/-- A user filter that has a row leaves it. -/
def removeFound (store : FilterStore) (filter : Filter) : FilterStore :=
  match store.findUser filter with
  | some row => store.removeUser row
  | none => store

/-- A user filter gets a row before the others. -/
def insertUser (store : FilterStore) (filter : Filter) : FilterStore :=
  { store with
    filters := insertRow store.filters store.offset (some filter)
    numUser := store.numUser + 1 }

/-- The separator, unless there is one. -/
def separate (store : FilterStore) : FilterStore :=
  if store.numBuiltin ≠ 0 ∧ !store.hasSeparator then
    { store with
      filters := insertRow store.filters store.numBuiltin none
      hasSeparator := true }
  else store

/-- `filter_store_add_user`. -/
def addUser (store : FilterStore) (filter : Filter) : FilterStore :=
  let store := { store with lastFilter := some filter }
  if store.findBuiltin filter then store
  else
    let store := ((store.removeFound filter).insertUser filter).separate
    if store.numUser > store.maxNumUser then
      store.removeUser (store.offset + store.numUser - 1)
    else store

/-- `filter_store_new`. -/
def new (null : Option Filter) : FilterStore :=
  let store : FilterStore := ⟨[], none, 0, 0, false, numUserFilters⟩
  match null with
  | some filter => store.addBuiltin filter (-1)
  | none => store

end FilterStore

/-! ## The preferences -/

/-- An element in a set. -/
inductive Element
  | filter (content : Option Str)
  | last (content user description : Option Str)
  | other (name : Str)
deriving DecidableEq, Repr

/-- An element under `Editor/filters`. -/
inductive Node
  | default (elements : List Element)
  | set (userId : Option Str) (elements : List Element)
  | other (name : Str)
deriving DecidableEq, Repr

/-- What is under `Editor/filters`, nothing if that is not there. -/
abbrev File := List Node

/-- `"TRUE"`, as the mark of a user filter is written. -/
def trueStr : Str := ['T', 'R', 'U', 'E']

/-- `"FALSE"`. -/
def falseStr : Str := ['F', 'A', 'L', 'S', 'E']

/-! ## The manager -/

/-- The manager and the preferences it saves to. The default store has no user id. -/
structure Mgr where
  filters : Str → Option Filter
  stores : Option Str → Option FilterStore
  /-- The keys of `named_stores`, in the order they came. -/
  userIds : List Str
  changed : Bool
  /-- Whether the save is to be run. -/
  saveIdle : Bool
  file : File

namespace Mgr

/-- `mgr_get_null_filter`. -/
def nullFilter (s : Mgr) : Option Filter := s.filters allFilesGlob

/-- `mgr_get_store`, which makes a store where there is none. -/
def createStore (s : Mgr) (userId : Option Str) : FilterStore × Mgr :=
  match s.stores userId with
  | some store => (store, s)
  | none =>
    let store := FilterStore.new s.nullFilter
    (store, { s with
      stores := update s.stores userId (some store)
      userIds := s.userIds ++ userId.toList })

/-- A store as it is after a change. -/
def putStore (s : Mgr) (userId : Option Str) (store : FilterStore) : Mgr :=
  { s with stores := update s.stores userId (some store) }

/-- `mgr_save`. -/
def save (s : Mgr) : Mgr := { s with saveIdle := true }

/-- `mgr_new_filter`. -/
def newFilter (s : Mgr) (description glob : Str) (user : Bool) : Option (Filter × Mgr) :=
  match s.filters glob with
  | some filter => some (filter, s)
  | none => (filterNew description glob user).map fun filter =>
      (filter, { s with filters := update s.filters glob (some filter), changed := true })

/-- `mgr_new_user_filter`. -/
def newUserFilter (s : Mgr) (glob : Str) (userId : Option Str) : Mgr :=
  match s.newFilter glob glob true with
  | none => s
  | some (filter, s) =>
    let (store, s) := s.createStore userId
    (s.putStore userId (store.addUser filter)).save

/-- `moo_filter_mgr_new_builtin_filter`. -/
def newBuiltinFilter (s : Mgr) (description glob : Str) (userId : Option Str) (position : ℤ) :
    Mgr :=
  match s.newFilter description glob false with
  | none => s
  | some (filter, s) =>
    let (store, s) := s.createStore userId
    s.putStore userId (store.addBuiltin filter position)

/-- `mgr_set_last_filter`. -/
def setLast (s : Mgr) (userId : Option Str) (filter : Filter) : Mgr :=
  let (store, s) := s.createStore userId
  if store.lastFilter ≠ some filter then
    { s.putStore userId { store with lastFilter := some filter } with changed := true }.save
  else s

/-- `moo_filter_mgr_set_last_filter`, with a row. -/
def setLastFilter (s : Mgr) (userId : Option Str) (row : ℕ) : Mgr :=
  match (s.stores userId).bind (·.filters[row]?.join) with
  | none => s
  | some filter => s.setLast userId filter

/-- `moo_filter_mgr_init_filter_combo`, for the store it makes. -/
def initFilterCombo (s : Mgr) (userId : Option Str) : Mgr := (s.createStore userId).2

/-! ## Loading -/

/-- One round of `mgr_load_set`, nothing where it returns. -/
def loadElement (s : Mgr) (userId : Option Str) : Element → Option Mgr
  | .filter content =>
    match content.getD [] with
    | [] => some s
    | glob => some (s.newUserFilter glob userId)
  | .last content user description =>
    match content.getD [] with
    | [] => some s
    | glob =>
      if user = some trueStr then some (s.newUserFilter glob userId)
      else match description with
        | none => some s
        | some description =>
          let s := s.newBuiltinFilter description glob userId (-1)
          (s.newFilter description glob false).map fun (filter, s) => s.setLast userId filter
  | .other _ => some s

/-- `mgr_load_set`, over the elements from the last one. -/
def loadElements (s : Mgr) (userId : Option Str) : List Element → Mgr
  | [] => s
  | elm :: elms =>
    match s.loadElement userId elm with
    | none => s
    | some s => s.loadElements userId elms

/-- `mgr_load_set`. -/
def loadSet (s : Mgr) (userId : Option Str) (elements : List Element) : Mgr :=
  s.loadElements userId elements.reverse

/-- One round of `mgr_load`. -/
def loadNode (s : Mgr) : Node → Mgr
  | .default elements => s.loadSet none elements
  | .set userId elements =>
    match userId.getD [] with
    | [] => s
    | userId => s.loadSet (some userId) elements
  | .other _ => s

/-- `moo_filter_mgr_init`. -/
def init (file : File) : Mgr where
  filters := update (fun _ => none) allFilesGlob
    (filterNew ['A', 'l', 'l', ' ', 'F', 'i', 'l', 'e', 's'] allFilesGlob false)
  stores _ := none
  userIds := []
  changed := false
  saveIdle := false
  file := file

end Mgr

/-- `mgr_load` in a manager that is new. -/
def load (file : File) : Mgr := { file.foldl Mgr.loadNode (.init file) with changed := false }

/-! ## Saving -/

/-- `mgr_save_set`. -/
def FilterStore.saveSet (store : FilterStore) : List Element :=
  (store.lastFilter.toList.map fun filter =>
    .last (some filter.glob) (some (if filter.user then trueStr else falseStr))
      (if filter.user then none else some filter.description)) ++
    store.listUserFilters.map fun filter => .filter (some filter.glob)

/-- The element that is made for a store. -/
def setNode (userId : Option Str) (elements : List Element) : Node :=
  match userId with
  | some userId => .set (some userId) elements
  | none => .default elements

/-- The order in which a hash table goes over keys that came in some order. -/
structure HashOrder where
  order : List Str → List Str
  perm (keys : List Str) : (order keys).Perm keys

namespace Mgr

/-- One round of `mgr_do_save`. -/
def saveNode (s : Mgr) (userId : Option Str) : Option Node :=
  match s.stores userId with
  | none => none
  | some store =>
    if store.numUser ≠ 0 ∨ store.lastFilter ≠ s.nullFilter then
      some (setNode userId store.saveSet)
    else none

/-- `mgr_do_save`. -/
def doSave (o : HashOrder) (s : Mgr) : Mgr :=
  if !s.changed then { s with saveIdle := false }
  else { s with
    saveIdle := false
    changed := false
    file := (none :: (o.order s.userIds).map some).filterMap s.saveNode }

/-! ## Runs -/

/-- What is done with the manager. -/
inductive Op
  | newUserFilter (glob : Str) (userId : Option Str)
  | newBuiltinFilter (description glob : Str) (userId : Option Str) (position : ℤ)
  | setLastFilter (userId : Option Str) (row : ℕ)
  | initFilterCombo (userId : Option Str)
  /-- The idle callback is run, if it is to be. -/
  | idle
deriving Repr

def step (o : HashOrder) (s : Mgr) : Op → Mgr
  | .newUserFilter glob userId => s.newUserFilter glob userId
  | .newBuiltinFilter description glob userId position =>
    s.newBuiltinFilter description glob userId position
  | .setLastFilter userId row => s.setLastFilter userId row
  | .initFilterCombo userId => s.initFilterCombo userId
  | .idle => if s.saveIdle then s.doSave o else s

def run (o : HashOrder) (s : Mgr) (ops : List Op) : Mgr := ops.foldl (step o) s

end Mgr

end Medit.Filters
