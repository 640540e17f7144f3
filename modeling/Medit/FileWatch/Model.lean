import Mathlib.Algebra.Group.Nat.Defs
import Mathlib.Algebra.GroupWithZero.Nat
import Mathlib.Algebra.Ring.Int.Defs
import Mathlib.Data.Int.Notation
import Mathlib.Data.List.Basic
import Mathlib.Logic.Function.Basic

/-!
# The file watch

`moofilewatch.cpp`: monitors of files, which a timeout checks one after another. What is called on
an event may create and cancel monitors, and close the watch, while a check is going on.

## Main definitions

* `Watch` — the monitors of a watch, in a list and in a table, and the memory they are in.
* `Watch.createMonitor`, `Watch.cancelMonitor`, `Watch.close` — the calls.
* `World.step` — one call, or one step of `do_stat`; nothing where memory is read that is freed.
-/

namespace Medit.FileWatch

open Function

/-! ## Files -/

/-- The errors of `stat` that are told apart. -/
inductive Errno
  | noent
  | notdir
  | nametoolong
  | other (code : ℕ)
deriving DecidableEq, Repr

/-- `MooFileWatchError`, as far as there are such errors. -/
inductive WatchError
  | closed
  | failed
  | notDir
  | nonexistent
  | badFilename
deriving DecidableEq, Repr

/-- `errno_to_file_error`; there is no `EACCESS`. -/
def errnoToFileError : Errno → WatchError
  | .nametoolong => .badFilename
  | .noent => .nonexistent
  | .notdir => .notDir
  | .other _ => .failed

/-- What `mgw_stat` gives, of which the modification time is used. -/
inductive Stat
  | ok (mtime : ℤ)
  | error (err : Errno)
deriving DecidableEq, Repr

inductive EventCode
  | changed
  | created
  | deleted
  | error
deriving DecidableEq, Repr

structure FileEvent where
  code : EventCode
  monitorId : ℕ
  filename : String
  error : Option WatchError
deriving DecidableEq, Repr

/-! ## The watch -/

structure Monitor where
  id : ℕ
  filename : String
  mtime : ℤ
  alive : Bool
deriving DecidableEq, Repr

/-- The address of a monitor. Each monitor has its own. -/
abbrev Ptr := ℕ

structure Watch where
  alive : Bool
  /-- The one added last is the first. -/
  monitors : List Ptr
  requests : ℕ → Option Ptr
  /-- What is at an address, unless it has been freed or not been allocated. -/
  heap : Ptr → Option Monitor
  nextPtr : Ptr
  /-- How often the `notify` of a monitor has run. -/
  notified : Ptr → ℕ
  /-- The `id` of `get_new_monitor_id`, which all watches share. -/
  lastId : ℕ

/-- `get_new_monitor_id`, for a `guint`. -/
def getNewMonitorId (id : ℕ) : ℕ :=
  let id := (id + 1) % 2 ^ 32
  if id = 0 then 1 else id

namespace Watch

/-- `moo_file_watch_new`. -/
def new (lastId : ℕ) : Watch where
  alive := true
  monitors := []
  requests _ := none
  heap _ := none
  nextPtr := 0
  notified _ := 0
  lastId := lastId

/-- `monitor_free`. -/
def free (w : Watch) (p : Ptr) : Watch :=
  { w with heap := update w.heap p none, notified := update w.notified p (w.notified p + 1) }

/-- `moo_file_watch_create_monitor`, with what `stat` gives. -/
def createMonitor (w : Watch) (filename : String) (stat : Stat) : Watch × Except WatchError ℕ :=
  if !w.alive then (w, .error .closed)
  else
    let p := w.nextPtr
    let w := { w with nextPtr := p + 1, heap := update w.heap p (some ⟨0, filename, 0, false⟩) }
    match stat with
    | .error err => (w.free p, .error (errnoToFileError err))
    | .ok mtime =>
      let id := getNewMonitorId w.lastId
      ({ w with
          lastId := id
          heap := update w.heap p (some ⟨id, filename, mtime, true⟩)
          monitors := p :: w.monitors
          requests := update w.requests id (some p) }, .ok id)

/-- `moo_file_watch_cancel_monitor`. -/
def cancelMonitor (w : Watch) (id : ℕ) : Option Watch :=
  match w.requests id with
  | none => some w
  | some p => (w.heap p).map fun monitor =>
      { w with
        monitors := w.monitors.erase p
        requests := update w.requests monitor.id none }.free p

/-- The loop of `moo_file_watch_close`. -/
def freeAll (w : Watch) : List Ptr → Option Watch
  | [] => some w
  | p :: ps => (w.heap p).bind fun _ => (w.free p).freeAll ps

/-- `moo_file_watch_close`. -/
def close (w : Watch) : Option Watch :=
  if !w.alive then some w
  else { w with alive := false, monitors := [] }.freeAll w.monitors

end Watch

/-! ## The check -/

/-- What is found for a monitor that is alive. When `stat` fails it still writes its buffer. -/
def Monitor.check (monitor : Monitor) : Stat → Monitor × Option FileEvent
  | .error .noent =>
    ({ monitor with mtime := 0 }, some ⟨.deleted, monitor.id, monitor.filename, none⟩)
  | .error err =>
    ({ monitor with mtime := 0, alive := false },
      some ⟨.error, monitor.id, monitor.filename, some (errnoToFileError err)⟩)
  | .ok mtime =>
    ({ monitor with mtime := mtime },
      if mtime > monitor.mtime then some ⟨.changed, monitor.id, monitor.filename, none⟩ else none)

/-- `moo_file_watch_emit_event`: whether the callback is called. -/
def emits (monitor : Monitor) (event : FileEvent) : Bool :=
  monitor.alive || event.code == .error

/-- What `do_stat` has between two monitors. -/
structure Tick where
  /-- The ids of the list that are still to come. -/
  list : List ℕ
  toRemove : List ℕ
  /-- A callback is running. -/
  inCallback : Bool
  /-- The monitors when the check began. -/
  started : List Ptr

/-- What has happened to a monitor. -/
inductive Entry
  | created (p : Ptr) (id : ℕ) (filename : String) (mtime : ℤ)
  | turn (tick : ℕ) (p : Ptr) (stat : Stat) (event : Option FileEvent)
deriving DecidableEq, Repr

/-- A watch, the check that is going on, and what happened, newest first. -/
structure World where
  watch : Watch
  tick : Option Tick
  log : List Entry
  /-- How many checks have begun. -/
  ticks : ℕ

inductive Input
  | create (filename : String) (stat : Stat)
  | cancel (id : ℕ)
  | close
  /-- Another watch creates a monitor. -/
  | otherWatch
  /-- The timeout calls `do_stat`. -/
  | beginTick
  /-- `do_stat` goes on to the next monitor, for which `stat` gives this. -/
  | visit (stat : Stat)
  | endTick
deriving Repr

namespace World

def new (lastId : ℕ) : World := ⟨.new lastId, none, [], 0⟩

/-- Calls come from callbacks and from outside of `do_stat`. -/
def mayCall (w : World) : Bool := w.tick.all (·.inCallback)

/-- The ids of the monitors, in the order they were added. -/
def ids (w : Watch) : List Ptr → Option (List ℕ)
  | [] => some []
  | p :: ps => (w.heap p).bind fun monitor => (ids w ps).map (· ++ [monitor.id])

/-- `do_stat`, before the loop. -/
def beginTick (w : World) : Option World :=
  (ids w.watch w.watch.monitors).map fun list =>
    { w with tick := some ⟨list, [], false, w.watch.monitors⟩, ticks := w.ticks + 1 }

/-- One round of the loop of `do_stat`. -/
def visit (w : World) (t : Tick) (id : ℕ) (list : List ℕ) (stat : Stat) : Option World :=
  match w.watch.requests id with
  | none => some { w with tick := some { t with list := list, inCallback := false } }
  | some p => (w.watch.heap p).map fun monitor =>
      if !monitor.alive then
        { w with tick := some { t with list := list, inCallback := false } }
      else
        let (monitor', event) := monitor.check stat
        let emitted := event.filter (emits monitor')
        { w with
          watch := { w.watch with heap := update w.watch.heap p (some monitor') }
          tick := some { t with
            list := list
            toRemove :=
              if stat = .error .noent then monitor.id :: t.toRemove else t.toRemove
            inCallback := emitted.isSome }
          log := .turn w.ticks p stat emitted :: w.log }

/-- The second loop of `do_stat`. -/
def removeAll (w : Watch) : List ℕ → Option Watch
  | [] => some w
  | id :: ids =>
    match w.requests id with
    | none => removeAll w ids
    | some _ => (w.cancelMonitor id).bind fun w => removeAll w ids

/-- The monitor that has been created, if `stat` gave anything. -/
def logCreated (w : World) (filename : String) (stat : Stat) : List Entry :=
  match w.watch.alive, stat with
  | true, .ok mtime =>
    .created w.watch.nextPtr (getNewMonitorId w.watch.lastId) filename mtime :: w.log
  | _, _ => w.log

/-- What cannot happen in a state does nothing. -/
def step (w : World) : Input → Option World
  | .create filename stat =>
    if w.mayCall then
      some { w with
        watch := (w.watch.createMonitor filename stat).1
        log := w.logCreated filename stat }
    else some w
  | .cancel id =>
    if w.mayCall then (w.watch.cancelMonitor id).map fun watch => { w with watch := watch }
    else some w
  | .close =>
    if w.mayCall then w.watch.close.map fun watch => { w with watch := watch } else some w
  | .otherWatch =>
    some { w with watch := { w.watch with lastId := getNewMonitorId w.watch.lastId } }
  | .beginTick => if w.watch.alive ∧ w.tick.isNone then w.beginTick else some w
  | .visit stat =>
    match w.tick with
    | some t =>
      match t.list with
      | id :: list => w.visit t id list stat
      | [] => some w
    | none => some w
  | .endTick =>
    match w.tick with
    | some t =>
      if t.list = [] then
        (removeAll w.watch t.toRemove).map fun watch => { w with watch := watch, tick := none }
      else some w
    | none => some w

/-- The inputs of a run, one after another. -/
def run (w : World) : List Input → Option World
  | [] => some w
  | i :: is => (w.step i).bind fun w => w.run is

end World

end Medit.FileWatch
