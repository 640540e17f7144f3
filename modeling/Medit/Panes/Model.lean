import Mathlib.Logic.Function.Basic
import Medit.Library.HiddenOrder
import Medit.Panes.Config
import Medit.Library.StringEq

/-!
# Panes of a big paned

The model of `moobigpaned.cpp`, and of what it uses of `moopaned.cpp`. A pane and its widget are
given by the id. The handlers of the signals that a paned sends, about its size, its sticky pane and
its active pane, are operations of their own.

## Main definitions

* `BigPaned` — the configuration, the panes that are shown and the lists of the four sides.
* `insertPane`, `removePane`, `reorderPane` — the operations of the same names.
* `restart` — a new big paned with the configuration that the old one has written.
* `Op`, `run` — runs.
-/

namespace Medit.Panes

open HiddenOrder

/-- `MooBigPaned` -/
structure BigPaned where
  config : Config
  panes : List Id
  children : Position → List Id

namespace BigPaned

/-- `moo_big_paned_init` -/
def new : BigPaned := ⟨.new, [], fun _ => []⟩

def positions : List Position := [.left, .right, .top, .bottom]

/-- Whether a pane with an id is there now. -/
def shown (s : BigPaned) (id : Id) : Bool := id ∈ s.panes

def order (s : BigPaned) (pos : Position) : List Id := (s.config.paned pos).order

/-- The ids of all four lists. -/
def all (s : BigPaned) : List Id := positions.flatMap s.order

def setPaned (s : BigPaned) (pos : Position) (paned : PanedConfig) : BigPaned :=
  { s with config.paned := Function.update s.config.paned pos paned }

def setOrder (s : BigPaned) (pos : Position) (order : List Id) : BigPaned :=
  s.setPaned pos { s.config.paned pos with order := order }

def setChildren (s : BigPaned) (pos : Position) (panes : List Id) : BigPaned :=
  { s with children := Function.update s.children pos panes }

/-! ## The configuration -/

/-- `get_pane_config` -/
def getPaneConfig (s : BigPaned) (id : Id) : Option (PaneParams × Position × ℕ) :=
  match s.config.panes.lookup id with
  | none => none
  | some params =>
    positions.findSome? fun pos =>
      (shownBefore s.shown id (s.order pos)).map fun index => (params, pos, index)

/-- `add_pane_id_to_list` -/
def addPaneIdToList (s : BigPaned) (pos : Position) (id : Id) (index : ℕ) : BigPaned :=
  s.setOrder pos (insertAt (s.order pos) (realIndex s.shown (s.order pos) index) id)

/-- `add_pane_config` -/
def addPaneConfig (s : BigPaned) (id : Id) (params : PaneParams) (pos : Position) (index : ℕ) :
    BigPaned :=
  if (s.config.panes.lookup id).isSome then s
  else
    let s := { s with config.panes := insertParams s.config.panes id params }
    s.addPaneIdToList pos id index

/-- `move_pane_config` -/
def movePaneConfig (s : BigPaned) (id : Id) (oldPos newPos : Position) (newIndex : ℕ) : BigPaned :=
  if (s.config.panes.lookup id).isSome ∧ id ∈ s.order oldPos then
    let s := s.setOrder oldPos ((s.order oldPos).erase id)
    s.addPaneIdToList newPos id newIndex
  else s

/-! ## Operations -/

/-- `_moo_paned_insert_pane` -/
def insertChild (s : BigPaned) (pos : Position) (id : Id) (position : ℤ) : BigPaned :=
  let position :=
    if position < 0 ∨ (s.children pos).length < position then (s.children pos).length
    else position.toNat
  s.setChildren pos (insertAt (s.children pos) position id)

/-- `moo_big_paned_insert_pane` -/
def insertPane (s : BigPaned) (id : Id) (position : Position) (index : ℤ) : BigPaned :=
  if s.shown id then s
  else
    let (params, position, index) : Option PaneParams × Position × ℤ :=
      match s.getPaneConfig id with
      | some (params, position, index) => (some params, position, index)
      | none => (none, position, index)
    let index := if index < 0 then ((s.children position).length : ℤ) else index
    let s := s.insertChild position id index
    let s := { s with panes := id :: s.panes }
    if params.isNone then s.addPaneConfig id .new position index.toNat else s

/-- `moo_big_paned_find_pane` -/
def findPane (s : BigPaned) (id : Id) : Option Position :=
  positions.find? fun pos => id ∈ s.children pos

/-- `moo_big_paned_reorder_pane` -/
def reorderPane (s : BigPaned) (id : Id) (newPos : Position) (newIndex : ℤ) : BigPaned :=
  match s.findPane id with
  | none => s
  | some oldPos =>
    let oldIndex := (s.children oldPos).idxOf id
    let newIndex :=
      if newIndex < 0 then
        if oldPos = newPos then ((s.children oldPos).length : ℤ) - 1
        else (s.children newPos).length
      else newIndex
    if oldPos = newPos ∧ oldIndex = newIndex then s
    else
      let s :=
        if oldPos = newPos then
          -- `_moo_paned_reorder_child`
          s.setChildren oldPos (insertAt ((s.children oldPos).erase id) newIndex.toNat id)
        else
          (s.setChildren oldPos ((s.children oldPos).erase id)).insertChild newPos id newIndex
      s.movePaneConfig id oldPos newPos newIndex.toNat

/-- `moo_big_paned_remove_pane` -/
def removePane (s : BigPaned) (id : Id) : BigPaned :=
  match s.findPane id with
  | none => s
  | some pos =>
    let s := { s with panes := s.panes.erase id }
    s.setChildren pos ((s.children pos).erase id)

/-- `child_set_pane_size` -/
def setSize (s : BigPaned) (pos : Position) (size : ℤ) : BigPaned :=
  s.setPaned pos { s.config.paned pos with size := size }

/-- `sticky_pane_notify` -/
def stickyNotify (s : BigPaned) (pos : Position) (sticky : Bool) : BigPaned :=
  s.setPaned pos { s.config.paned pos with sticky := sticky.toInt }

/-- `active_pane_notify` -/
def activeNotify (s : BigPaned) (pos : Position) (id : Option Id) : BigPaned :=
  s.setPaned pos { s.config.paned pos with active := id }

/-- `pane_params_changed` -/
def paramsChanged (s : BigPaned) (id : Id) (params : PaneParams) : BigPaned :=
  { s with config.panes := insertParams s.config.panes id params }

/-- A new big paned, after `moo_big_paned_set_config` of what `moo_big_paned_get_config` gives. -/
def restart (s : BigPaned) (entries : List (Id × PaneParams)) : BigPaned :=
  match Config.parse (s.config.serialize entries) with
  | none => new
  | some config => { new with config := config }

/-! ## Runs -/

inductive Op
  | insert (id : Id) (pos : Position) (index : ℤ)
  | remove (id : Id)
  | reorder (id : Id) (pos : Position) (index : ℤ)
  | setSize (pos : Position) (size : ℤ)
  | sticky (pos : Position) (sticky : Bool)
  | active (pos : Position) (id : Option Id)
  | paramsChanged (id : Id) (params : PaneParams)
  | restart (entries : List (Id × PaneParams))

def step (s : BigPaned) : Op → BigPaned
  | .insert id pos index => s.insertPane id pos index
  | .remove id => s.removePane id
  | .reorder id pos index => s.reorderPane id pos index
  | .setSize pos size => s.setSize pos size
  | .sticky pos sticky => s.stickyNotify pos sticky
  | .active pos id => s.activeNotify pos id
  | .paramsChanged id params => s.paramsChanged id params
  | .restart entries => s.restart entries

/-- What operations bring along: ids that are no separators, sizes in their bounds, panes that are
there, and the entries of the hash table. -/
def Op.Valid (s : BigPaned) : Op → Prop
  | .insert id _ _ => ValidId id
  | .remove .. | .reorder .. | .sticky .. => True
  | .setSize _ size => -1 ≤ size ∧ size ≤ 100000
  | .active pos id => ∀ i ∈ id, i ∈ s.children pos
  | .paramsChanged id params => id ∈ s.panes ∧ params.Valid
  | .restart entries => entries.Perm s.config.panes

def run (s : BigPaned) (ops : List Op) : BigPaned := ops.foldl step s

def ValidRun : BigPaned → List Op → Prop
  | _, [] => True
  | s, op :: ops => op.Valid s ∧ ValidRun (s.step op) ops

end BigPaned

end Medit.Panes
