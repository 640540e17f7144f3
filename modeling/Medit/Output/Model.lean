import Mathlib.Algebra.Group.Nat.Defs
import Mathlib.Algebra.GroupWithZero.Nat
import Mathlib.Algebra.Ring.Int.Defs
import Mathlib.Data.List.Range
import Mathlib.Logic.Function.Basic
import Medit.Library.CharLines

/-!
# Output of a command in a line view

The model of `moooutputfilterregex.cpp`, of what it writes into `moolineview.cpp`, and of the lines
of `moocmdview.cpp` that no filter takes. Positions count characters, on whose borders `GRegex` stays
in a valid text.

## Main definitions

* `LineView` — the text of a view with its tags, and the data of its lines.
* `Pattern`, `Filter` — the patterns of a filter, and the state of a filter.
* `findMatch`, `processLine` — `find_match` and `process_line`.
* `Filter.outputLine` — a line that goes through the filter, or else to the plain writer.
-/

namespace Medit.Output

abbrev Str := List Char

/-! ## The view -/

/-- `MooFileLineData` -/
structure FileLineData where
  file : Option Str
  line : ℤ
  character : ℤ
deriving DecidableEq

/-- Text with the name of its tag. -/
structure Piece where
  text : Str
  tag : Option Str
deriving DecidableEq

/-- `MooLineView` -/
structure LineView where
  pieces : List Piece
  lineData : ℕ → Option FileLineData
  busy : Bool

namespace LineView

def empty : LineView := ⟨[], fun _ => none, false⟩

def text (v : LineView) : Str := v.pieces.flatMap Piece.text

/-- The lines of the buffer, of which an empty one has one. -/
def lines (v : LineView) : List Str := CharLines.lines v.text

/-- `moo_line_view_start_line`: the line that is begun, unless one is being written. -/
def startLine (v : LineView) : Option ℕ × LineView :=
  if v.busy then (none, v)
  else
    let v := { v with busy := true }
    let v :=
      if CharLines.startsLine v.text v.text.length then v
      else { v with pieces := v.pieces ++ [⟨['\n'], none⟩] }
    (some (v.lines.length - 1), v)

/-- `moo_line_view_write` -/
def write (v : LineView) (text tag : Str) : LineView :=
  if v.busy then { v with pieces := v.pieces ++ [⟨text, some tag⟩] } else v

/-- `moo_line_view_end_line` -/
def endLine (v : LineView) : LineView := { v with busy := false }

/-- `moo_line_view_write_line` -/
def writeLine (v : LineView) (text tag : Str) : Option ℕ × LineView :=
  match v.startLine with
  | (none, v) => (none, v)
  | (some line, v) => (some line, (v.write text tag).endLine)

/-- `moo_line_view_set_boxed`, which refuses a line of `-1`. -/
def setBoxed (v : LineView) (line : Option ℕ) (data : FileLineData) : LineView :=
  match line with
  | none => v
  | some line => { v with lineData := Function.update v.lineData line (some data) }

end LineView

/-! ## Patterns -/

/-- `OutputType` -/
inductive OutputType
  | all
  | stdout
  | stderr
deriving DecidableEq

/-- `ActionType` -/
inductive ActionType
  | pop
  | push
deriving DecidableEq

/-- `ActionTarget` -/
inductive ActionTarget
  | file
  | dir
deriving DecidableEq

/-- `RegexActionInfo` -/
structure RegexActionInfo where
  type : ActionType
  target : ActionTarget
  data : Option Str

/-- `GMatchInfo`: where the expression matches, and `g_match_info_fetch_named`. -/
structure MatchInfo where
  start : ℕ
  stop : ℕ
  named : Str → Option Str

/-- `GRegex`, by its matches that are anchored at a position. -/
structure Regex where
  matchAt : Str → ℕ → Option MatchInfo
  le_start : ∀ {text pos m}, matchAt text pos = some m → pos ≤ m.start
  start_le : ∀ {text pos m}, matchAt text pos = some m → m.start ≤ m.stop
  stop_le : ∀ {text pos m}, matchAt text pos = some m → m.stop ≤ text.length

/-- `PatternInfo` -/
structure Pattern where
  type : OutputType
  re : Regex
  style : Option Str
  actions : List RegexActionInfo
  span : ℕ

/-- The patterns for one kind of output. -/
def alternatives (patterns : List Pattern) (type : OutputType) : List Pattern :=
  patterns.filter fun p => p.type == type || p.type == .all

/-- The match of `re_out` or `re_err`, the patterns joined: at the first position where one of them
matches, the one that comes first. -/
def matchAll (patterns : List Pattern) (type : OutputType) (text : Str) (pos : ℕ) :
    Option MatchInfo :=
  (List.range' pos (text.length + 1 - pos)).findSome? fun q =>
    (alternatives patterns type).findSome? fun p => p.re.matchAt text q

/-- `find_match` -/
def findMatch (patterns : List Pattern) (text : Str) (pos : ℕ) (type : OutputType) :
    Option (Pattern × MatchInfo) :=
  match matchAll patterns type text pos with
  | none => none
  | some all =>
    (alternatives patterns type).findSome? fun p =>
      match p.re.matchAt text all.start with
      | none => none
      | some m => if m.start = pos ∧ m.stop = pos then none else some (p, m)

/-! ## Locations -/

/-- What the code asks GLib about paths. -/
structure Env where
  isAbsolute : Str → Bool
  buildFilename : Str → Str → Str
  fileTest : Str → Bool

/-- `string_to_int`: the number, if it is an `int` and nothing follows it. -/
def stringToInt (s : Str) : Option ℤ :=
  let s := s.dropWhile fun c => c == ' ' || ('\t' ≤ c && c ≤ '\r')
  let negative := s.head? == some '-'
  let s := if negative || s.head? == some '+' then s.tail else s
  if s ≠ [] ∧ s.all Char.isDigit then
    let n := s.foldl (fun n c => 10 * n + (c.toNat - '0'.toNat : ℤ)) 0
    let n := if negative then -n else n
    if -2 ^ 31 ≤ n ∧ n < 2 ^ 31 then some n else none
  else none

/-- `_moo_convert_string_to_int` -/
def convertStringToInt (s : Option Str) (default : ℤ) : ℤ :=
  match s with
  | none | some [] => default
  | some s => (stringToInt s).getD default

/-- The files and directories that locations are relative to. -/
structure Paths where
  activeFile : Option Str
  activeDirs : List Str
  fileStack : List (Option Str)
  dirStack : List (Option Str)

namespace Paths

/-- `find_file_in_dir` -/
def findFileInDir (env : Env) (file : Str) (dir : Option Str) : Option Str :=
  match dir with
  | none => none
  | some dir =>
    let path := env.buildFilename dir file
    if env.fileTest path then some path else none

/-- `find_file` of a name -/
def findFile (env : Env) (w : Paths) (file : Str) : Str :=
  if env.isAbsolute file then file
  else
    match w.dirStack.head?.bind (findFileInDir env file) with
    | some path => path
    | none => (w.activeDirs.findSome? fun dir => findFileInDir env file (some dir)).getD file

/-- `parse_file_line` -/
def parseFileLine (env : Env) (w : Paths) (file line character : Option Str) :
    Option FileLineData :=
  let file := file.filter (· ≠ [])
  let line := line.filter (· ≠ [])
  if file = none ∧ line = none then none
  else
    match (file.or (w.fileStack.head?.join)).or w.activeFile with
    | none => none
    | some file =>
      let file := w.findFile env file
      some ⟨if file = [] then none else some file,
        convertStringToInt line 0 - 1, convertStringToInt character 0 - 1⟩

/-- The location that `process_location` finds in a match. -/
def processLocation (env : Env) (w : Paths) (m : MatchInfo) : Option FileLineData :=
  let file := m.named "file".toList
  let line := m.named "line".toList
  if file.isSome ∨ line.isSome then
    w.parseFileLine env file line (m.named "character".toList)
  else none

/-- A stack after `process_action`: a name that the match lacks is the one on the top again, or the
active file, for directories as well. -/
def processStack (w : Paths) (m : MatchInfo) (action : RegexActionInfo)
    (stack : List (Option Str)) : List (Option Str) :=
  match action.type with
  | .push =>
    match action.data.bind m.named with
    | some data => some data :: stack
    | none =>
      match stack with
      | top :: _ => top :: stack
      | [] => [w.activeFile]
  | .pop => stack.tail

/-- `process_action` -/
def processAction (m : MatchInfo) (w : Paths) (action : RegexActionInfo) : Paths :=
  match action.target with
  | .file => { w with fileStack := w.processStack m action w.fileStack }
  | .dir => { w with dirStack := w.processStack m action w.dirStack }

end Paths

/-! ## The filter -/

/-- `MooOutputFilterRegex` with what it reads of `MooOutputFilter`. -/
structure Filter where
  patterns : List Pattern
  paths : Paths
  span : ℕ
  style : Option Str
  line : Option FileLineData

/-- The name of the tag that `get_tag` gives. -/
def getTag (type : OutputType) (name : Option Str) : Str :=
  name.getD (if type = .stderr then "output-stderr".toList else "output-stdout".toList)

/-- The filter after a match of a pattern in `process_line`. -/
def Filter.matched (env : Env) (f : Filter) (p : Pattern) (m : MatchInfo) : Filter :=
  let data := f.paths.processLocation env m
  let f := { f with paths := p.actions.foldl (Paths.processAction m) f.paths }
  if 1 < p.span then { f with span := p.span - 1, style := p.style, line := data } else f

/-- What `process_line` writes of a line up to the end of a match, with the data of the match. -/
def LineView.writeMatch (v : LineView) (type : OutputType) (text : Str) (startPos : ℕ) (p : Pattern)
    (m : MatchInfo) (line : Option ℕ) (data : Option FileLineData) : LineView :=
  let v :=
    if startPos < m.start then
      v.write ((text.drop startPos).take (m.start - startPos)) (getTag type none)
    else v
  let v :=
    if m.start < m.stop then
      v.write ((text.drop m.start).take (m.stop - m.start)) (getTag type p.style)
    else v
  match data with
  | some data => v.setBoxed line data
  | none => v

/-- The loop of `process_line`, with the position where it ends and whether something was found. -/
def processLoop (env : Env) (type : OutputType) (text : Str) :
    ℕ → ℕ → Option (Option ℕ) → Filter → LineView → Option (ℕ × Bool × Filter × LineView)
  | 0, _, _, _, _ => none
  | fuel + 1, startPos, lineNo, f, v =>
    if text.drop startPos = [] then some (startPos, lineNo.isSome, f, v)
    else
      match findMatch f.patterns text startPos type with
      | none => some (startPos, lineNo.isSome, f, v)
      | some (p, m) =>
        let (line, v) :=
          match lineNo with
          | some line => (line, v)
          | none => v.startLine
        let v := v.writeMatch type text startPos p m line (f.paths.processLocation env m)
        let f := f.matched env p m
        if p.span ≠ 0 then
          let v := v.write (text.drop m.stop) (getTag type p.style)
          processLoop env type text fuel text.length (some line) f v
        else processLoop env type text fuel m.stop (some line) f v

/-- `process_line`, with enough fuel for the loop. -/
def processLine (env : Env) (type : OutputType) (text : Str) (f : Filter) (v : LineView) :
    Option (Bool × Filter × LineView) :=
  if f.span ≠ 0 then
    let (lineNo, v) := v.writeLine text (getTag type f.style)
    let v :=
      match f.line with
      | some data => v.setBoxed lineNo data
      | none => v
    let f := { f with span := f.span - 1 }
    let f := if f.span = 0 then { f with style := none, line := none } else f
    some (true, f, v)
  else
    match processLoop env type text (text.length + 1) 0 none f v with
    | none => none
    | some (startPos, found, f, v) =>
      if found then
        let v :=
          if text.drop startPos ≠ [] then v.write (text.drop startPos) (getTag type none) else v
        some (true, f, v.endLine)
      else some (false, f, v)

/-- `moo_cmd_view_stdout_line` and `moo_cmd_view_stderr_line` of a view with a filter. -/
def Filter.outputLine (env : Env) (type : OutputType) (text : Str) (f : Filter) (v : LineView) :
    Option (Filter × LineView) :=
  match processLine env type text f v with
  | none => none
  | some (handled, f, v) =>
    if handled then some (f, v)
    else some (f, (v.writeLine text (if type = .stderr then "stderr" else "stdout").toList).2)

/-- The lines of a command, of either stream. -/
def Filter.output (env : Env) :
    Filter → LineView → List (OutputType × Str) → Option (Filter × LineView)
  | f, v, [] => some (f, v)
  | f, v, (type, text) :: ls =>
    match f.outputLine env type text v with
    | none => none
    | some (f, v) => Filter.output env f v ls

end Medit.Output
