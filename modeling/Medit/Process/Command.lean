import Medit.Files.Encoding
import Medit.Library.Machine
import Medit.Process.Channel

/-!
# Commands

`MooCmd`: a child process whose output is read line by line, and which is over when the ends of its
two pipes and its exit have been seen, in any order.

## Main definitions

* `MooCmd` — a command, with the channels that are watched and the signals that have been emitted.
* `MooCmd.commandOutOrErr`, `MooCmd.tryChannelLeftover` — the two ways in which lines are read.
* `MooCmd.step` — what the main loop sees of a child.
-/

namespace Medit

/-- The signals of a command that carry something. -/
inductive CmdSignal
  | stdoutLine (line : List UInt8)
  | stderrLine (line : List UInt8)
  | cmdExit (status : ℤ)
deriving DecidableEq

/-- A command. A channel and its watch are there together; `signals` is what has been emitted. -/
structure MooCmd where
  running : Bool
  utf8Output : Bool
  exitStatus : ℤ
  childWatch : Bool
  out : Option GIOChannel
  err : Option GIOChannel
  signals : List CmdSignal
deriving DecidableEq

/-- The lines that a `MooLineReader` goes through. -/
def readerLines (text : List UInt8) : List (List UInt8) :=
  let line := mooLineReaderGetLine text
  line.1 ::
    match _h : lineReaderRest line.2.1 line.2.2 with
    | none => []
    | some rest => readerLines rest
termination_by text.length
decreasing_by
  unfold lineReaderRest at _h
  split_ifs at _h with hterm
  obtain rfl := Option.some.inj _h
  exact length_mooLineReaderGetLine text hterm

/-- The loop of `command_out_or_err`. -/
def readLines (cut : ℕ → ℕ) (ch : GIOChannel) (status : GIOStatus) (count : ℕ) :
    GIOChannel × GIOStatus × List (List UInt8) :=
  if count < 4096 then
    match _h : ch.readLine cut with
    | (ch', status, none) => (ch', status, [])
    | (ch', status, some (line, _)) =>
      let (ch', status, lines) := readLines cut ch' status (count + line.length)
      (ch', status, line :: lines)
  else (ch, status, [])
termination_by ch.rest.length
decreasing_by exact GIOChannel.length_readLine cut _h

/-- What stands outside of the program: the character set of the locale, `g_convert_with_fallback`,
and how much each read of a pipe gives. -/
structure CmdWorld where
  charsetIsUtf8 : Bool
  gConvert : List UInt8 → Option (List UInt8)
  cut : Bool → ℕ → ℕ

/-- The valid bytes in front of the first invalid ones. -/
def validPrefix (line : List UInt8) : List UInt8 :=
  ((List.range (line.length + 1)).reverse.map line.take).find? gUtf8Validate |>.getD []

namespace MooCmd

/-- `stdout_io` or `stderr_io` -/
def channel (cmd : MooCmd) (out : Bool) : Option GIOChannel := if out then cmd.out else cmd.err

def setChannel (cmd : MooCmd) (out : Bool) (ch : Option GIOChannel) : MooCmd :=
  if out then { cmd with out := ch } else { cmd with err := ch }

variable (world : CmdWorld)

/-- `real_line` of `process_line` -/
def realLine (cmd : MooCmd) (line : List UInt8) : Option (List UInt8) :=
  if cmd.utf8Output && !gUtf8Validate line then
    if world.charsetIsUtf8 then
      if validPrefix line = [] then none else some (validPrefix line)
    else world.gConvert line
  else some line

/-- `process_line` -/
def processLine (cmd : MooCmd) (err : Bool) (line : List UInt8) : MooCmd :=
  match cmd.realLine world line with
  | none => cmd
  | some line =>
    { cmd with signals := cmd.signals ++ [if err then .stderrLine line else .stdoutLine line] }

/-- `command_out_or_err`, and whether the watch is kept. The line is cut where it ends, and at a zero
byte. -/
def commandOutOrErr (cmd : MooCmd) (ch : GIOChannel) (hup out : Bool) :
    MooCmd × GIOChannel × Bool :=
  let (ch, status, lines) := readLines (world.cut out) ch .normal 0
  (lines.foldl (fun cmd line => cmd.processLine world (!out) (gStrdup line)) cmd, ch,
    !hup && status != .eof)

/-- `try_channel_leftover` -/
def tryChannelLeftover (cmd : MooCmd) (ch : GIOChannel) (out : Bool) : MooCmd :=
  match (ch.readToEnd (world.cut out)).2 with
  | none => cmd
  | some text =>
    ((mooLineReaderInit (gStrdup text)).elim [] readerLines).foldl
      (fun cmd line => cmd.processLine world (!out) line) cmd

/-- `moo_cmd_cleanup`, when nothing is watched any more -/
def cleanup (cmd : MooCmd) : MooCmd :=
  if cmd.running then { cmd with running := false, childWatch := false, out := none, err := none }
  else cmd

/-- `moo_cmd_check_stop` -/
def checkStop (cmd : MooCmd) : MooCmd :=
  if !cmd.running then cmd
  else if !cmd.childWatch && cmd.out.isNone && cmd.err.isNone then
    let cmd : MooCmd := { cmd with signals := cmd.signals ++ [.cmdExit cmd.exitStatus] }
    cmd.cleanup
  else cmd

/-- `stdout_watch_removed` and `stderr_watch_removed` -/
def watchRemoved (cmd : MooCmd) (out : Bool) : MooCmd :=
  (match cmd.channel out with
    | none => cmd
    | some ch => (cmd.tryChannelLeftover world ch out).setChannel out none).checkStop

/-- `command_exit` -/
def commandExit (cmd : MooCmd) (status : ℤ) : MooCmd :=
  let cmd : MooCmd := { cmd with exitStatus := status, childWatch := false }
  cmd.checkStop

end MooCmd

/-- What happens to a command: the child closes a pipe, the main loop calls the watch of a channel,
with `G_IO_HUP` or without, or it notices that the child has exited. -/
inductive CmdEvent
  | close (out : Bool)
  | ready (out hup : Bool)
  | exit (status : ℤ)

namespace MooCmd

variable (world : CmdWorld)

/-- One thing that happens. There is no `G_IO_HUP` before the pipe has been closed. -/
def step (cmd : MooCmd) : CmdEvent → MooCmd
  | .close out => cmd.setChannel out ((cmd.channel out).map fun ch => { ch with closed := true })
  | .ready out hup =>
    match cmd.channel out with
    | none => cmd
    | some ch =>
      if hup && !ch.closed then cmd
      else
        let (cmd, ch, keep) := cmd.commandOutOrErr world ch hup out
        let cmd := cmd.setChannel out (some ch)
        if keep then cmd else cmd.watchRemoved world out
  | .exit status => if cmd.childWatch then cmd.commandExit status else cmd

/-- `moo_cmd_run_command`: a child that is going to write `output`, and `errors` if its other pipe is
read. -/
def runCommand (utf8Output : Bool) (output : List UInt8) (errors : Option (List UInt8)) : MooCmd where
  running := true
  utf8Output := utf8Output
  exitStatus := 0
  childWatch := true
  out := some ⟨[], output, false, 0⟩
  err := errors.map fun bytes => ⟨[], bytes, false, 0⟩
  signals := []

/-- The lines of `stdout-line`. -/
def stdoutLines (signals : List CmdSignal) : List (List UInt8) :=
  signals.filterMap fun
    | .stdoutLine line => some line
    | _ => none

/-- The ends of both pipes and the exit of the child have been noticed. -/
def Noticed (cmd : MooCmd) : Prop := cmd.out = none ∧ cmd.err = none ∧ cmd.childWatch = false

instance (cmd : MooCmd) : Decidable cmd.Noticed := inferInstanceAs (Decidable (_ ∧ _ ∧ _))

end MooCmd

end Medit
