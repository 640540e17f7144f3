import Medit.Library.CString
import Medit.Library.CharLines
import Medit.Library.Utf8

/-!
# Shell command tools that insert their output

The model of `moocommand-exe.cpp` for a tool whose output is inserted into the document. The shell
runs `( c ) < f ; rm f` as `c` with `f` as its input, followed by `rm`.

## Main definitions

* `Document` — the text of the document, with its selection.
* `System` — what the command, the shell and the file system do.
* `run` — `moo_command_exe_run`.
* `IsInputRange` — the range of the text that an input kind stands for.

## Main results

* `run_iff` — exactly when a run replaces the range of its input or reports a failure.
-/

namespace Medit.ShellCommand

open CharLines

/-! ## The document -/

/-- The text of a document with the marks of its selection. -/
structure Document where
  text : List Char
  insert : ℕ
  bound : ℕ
  insert_le : insert ≤ text.length
  bound_le : bound ≤ text.length

namespace Document

/-- `gtk_text_buffer_select_range` -/
def selectRange (d : Document) (insert bound : ℕ) : Document :=
  ⟨d.text, min insert d.text.length, min bound d.text.length, Nat.min_le_right ..,
    Nat.min_le_right ..⟩

/-- The start and the end that `gtk_text_buffer_get_selection_bounds` gives. -/
def start (d : Document) : ℕ := min d.insert d.bound

def stop (d : Document) : ℕ := max d.insert d.bound

/-- `gtk_text_buffer_get_slice` -/
def slice (d : Document) (start stop : ℕ) : List Char := (d.text.take stop).drop start

/-- `gtk_text_buffer_delete` -/
def delete (d : Document) (start stop : ℕ) : Document :=
  let text := d.text.take start ++ d.text.drop stop
  let moved m := if m ≤ start then m else if m ≤ stop then start else m - (stop - start)
  ⟨text, min (moved d.insert) text.length, min (moved d.bound) text.length,
    Nat.min_le_right .., Nat.min_le_right ..⟩

/-- `gtk_text_buffer_insert`, which refuses bytes that are no text. -/
def insertBytes (d : Document) (pos : ℕ) (bytes : List UInt8) : Document :=
  match Utf8.decode bytes with
  | none => d
  | some t =>
    let text := d.text.take pos ++ (t ++ d.text.drop pos)
    let moved m := if pos ≤ m then m + t.length else m
    ⟨text, min (moved d.insert) text.length, min (moved d.bound) text.length,
    Nat.min_le_right .., Nat.min_le_right ..⟩

end Document

/-! ## The system -/

/-- The status of a process. -/
inductive WaitStatus
  | exited (code : Fin 256)
  | signaled (signal : ℕ)
deriving DecidableEq

/-- What comes of a run of a process. -/
structure Ran where
  status : WaitStatus
  out : List UInt8
  err : List UInt8
deriving DecidableEq

/-- What the processes and the file system do. -/
structure System where
  /-- The error, if `g_spawn_sync` does not start the shell. -/
  spawnError : Option String
  /-- Whether the input can be saved in a temporary file. -/
  saves : Bool
  command : List UInt8 → Ran
  rmStatus : WaitStatus
  rmErr : List UInt8
  /-- `/bin/sh -c` without a command -/
  noCommand : Ran
  noCommand_fails : noCommand.status ≠ .exited 0

/-- The command lines that `make_cmd` gives. -/
inductive CmdLine
  | command
  | redirected (input : List UInt8)
  | missing

/-- What the shell does with a command line. -/
def System.sh (sys : System) : CmdLine → Ran
  | .command => sys.command []
  | .redirected input =>
    let ran := sys.command input
    ⟨sys.rmStatus, ran.out, ran.err ++ sys.rmErr⟩
  | .missing => sys.noCommand

/-! ## The tool -/

/-- `MooCommandExeInput` -/
inductive Input
  | none
  | lines
  | selection
  | doc
  | docCopy
deriving DecidableEq

/-- The range that `get_lines` takes. -/
def lineRange (d : Document) : ℕ × ℕ :=
  let start := lineStart d.text d.start
  let stop :=
    if !startsLine d.text d.stop || start == d.stop then nextLine d.text d.stop else d.stop
  (start, stop)

/-- `get_input`, which selects the lines. -/
def getInput (input : Input) (d : Document) : Option (List Char) × Document :=
  match input with
  | .none | .docCopy => (Option.none, d)
  | .lines =>
    let (start, stop) := lineRange d
    (some (d.slice start stop), d.selectRange stop start)
  | .selection => (some (d.slice d.start d.stop), d)
  | .doc => (some (d.slice 0 d.text.length), d)

/-- `make_cmd` -/
def makeCmd (sys : System) (input : Option (List Char)) : CmdLine :=
  match input with
  | none | some [] => .command
  | some text => if sys.saves then .redirected (Utf8.encode text) else .missing

/-- What an error dialog says. -/
structure Dialog where
  text : String
  secondary : Option (List UInt8)
deriving DecidableEq

/-- `g_strchomp` -/
def chomp (s : List UInt8) : List UInt8 := (s.reverse.dropWhile CString.isSpace).reverse

/-- `run_command`: the output, or the dialog of a failure. -/
def runCommand (sys : System) (input : Option (List Char)) : Except Dialog (List UInt8) :=
  match sys.spawnError with
  | some error => .error ⟨"Could not run the command", some (CString.ascii error.toList)⟩
  | none =>
    let ran := sys.sh (makeCmd sys input)
    if ran.status ≠ .exited 0 then
      .error ⟨"The command failed", if ran.err = [] then none else some (chomp ran.err)⟩
    else .ok ran.out

/-- `insert_text` of a C string -/
def insertText (d : Document) (text : List UInt8) (replaceDoc : Bool) : Document :=
  let (start, stop) := if replaceDoc then (0, d.text.length) else (d.start, d.stop)
  (d.delete start stop).insertBytes start (text.takeWhile (· ≠ 0))

/-- `moo_command_exe_run` of a tool whose output is inserted. -/
def run (sys : System) (input : Input) (d : Document) : Document × Option Dialog :=
  let (text, d) := getInput input d
  match runCommand sys text with
  | .error dialog => (d, some dialog)
  | .ok out => (insertText d out (input == .doc), none)

/-! ## Ranges -/

/-- The lines from `start` to `stop` of which a part between `a` and `b` is selected. The line that
a selection of more than one line ends at the start of is not one of them. -/
structure IsLines (t : List Char) (a b start stop : ℕ) : Prop where
  start_le : start ≤ a
  starts : startsLine t start
  first : ∀ p, start < p → p ≤ a → startsLine t p = false
  le_stop : b ≤ stop
  ends : startsLine t stop ∨ stop = t.length
  last : ∀ p, b ≤ p → p < stop → startsLine t p → p = start
  nonempty : start < stop ∨ stop = t.length

/-- The range of the text that an input stands for; without an input it is where text is inserted,
in place of the selection. -/
def IsInputRange (input : Input) (d : Document) (start stop : ℕ) : Prop :=
  match input with
  | .lines => IsLines d.text d.start d.stop start stop
  | .doc => start = 0 ∧ stop = d.text.length
  | .none | .selection | .docCopy => start = d.start ∧ stop = d.stop

/-- What the command reads. -/
def stdin (input : Input) (d : Document) (start stop : ℕ) : List UInt8 :=
  match input with
  | .none | .docCopy => []
  | .lines | .selection | .doc => Utf8.encode (d.slice start stop)

variable {d : Document} {input : Input} {sys : System} {start stop : ℕ}

theorem Document.start_le_stop (d : Document) : d.start ≤ d.stop ∧ d.stop ≤ d.text.length := by
  have := d.insert_le
  have := d.bound_le
  rw [Document.start, Document.stop]
  omega

theorem isLines_lineRange (d : Document) :
    IsLines d.text d.start d.stop (lineRange d).1 (lineRange d).2 := by
  obtain ⟨hle, hlen⟩ := d.start_le_stop
  have hstart := lineStart_le d.text d.start
  have hfirst : ∀ p, lineStart d.text d.start < p → p ≤ d.start → startsLine d.text p = false :=
    fun p h hp => startsLine_of_lineStart_lt h hp
  have hstarts := startsLine_lineStart d.text d.start
  simp only [lineRange]
  split_ifs with h
  · refine ⟨hstart, hstarts, hfirst, le_nextLine _ _, startsLine_nextLine hlen, ?_, ?_⟩
    · intro p hp hlt hline
      have hstop : p = d.stop := by
        by_contra hne
        have := startsLine_of_lt_nextLine hlen (by omega) hlt
        simp [this] at hline
      rw [hstop] at hline
      simp only [hline, Bool.not_true, Bool.false_or, beq_iff_eq] at h
      omega
    · rcases hlen.lt_or_eq with hlt | heq
      · have := lt_nextLine hlt
        exact .inl (by omega)
      · have := le_nextLine d.text d.stop
        have := nextLine_le_length hlen
        exact .inr (by omega)
  · simp only [Bool.or_eq_true, Bool.not_eq_true', beq_iff_eq, not_or, Bool.not_eq_false] at h
    exact ⟨hstart, hstarts, hfirst, le_rfl, .inl h.1, fun p hp hlt => by omega, .inl (by omega)⟩

theorem lineRange_le (d : Document) :
    (lineRange d).1 ≤ (lineRange d).2 ∧ (lineRange d).2 ≤ d.text.length := by
  obtain ⟨hle, hlen⟩ := d.start_le_stop
  have hstart := lineStart_le d.text d.start
  have hstop := le_nextLine d.text d.stop
  have hnext := nextLine_le_length hlen
  simp only [lineRange]
  split_ifs <;> omega

/-! ## A run -/

theorem Document.text_insertBytes (d : Document) (pos : ℕ) (bytes : List UInt8) :
    (d.insertBytes pos bytes).text =
      d.text.take pos ++ ((Utf8.decode bytes).getD [] ++ d.text.drop pos) := by
  rw [insertBytes]
  split
  · next h => simp [h]
  · next t h => simp [h]

/-- What is put into the place of a range. -/
theorem text_insertText {d : Document} {replaceDoc : Bool} (out : List UInt8)
    (h : (if replaceDoc then (0, d.text.length) else (d.start, d.stop)) = (start, stop))
    (hstart : start ≤ d.text.length) :
    (insertText d out replaceDoc).text = d.text.take start ++
      ((Utf8.decode (out.takeWhile (· ≠ 0))).getD [] ++ d.text.drop stop) := by
  have hdelete : (d.delete start stop).text = d.text.take start ++ d.text.drop stop := rfl
  have htake : (d.delete start stop).text.take start = d.text.take start := by
    simp [hdelete, hstart]
  have hdrop : (d.delete start stop).text.drop start = d.text.drop stop := by
    simp [hdelete, hstart]
  simp only [insertText, h]
  rw [Document.text_insertBytes, htake, hdrop]

/-- The command line for what the command reads. -/
def cmdLine (sys : System) (bytes : List UInt8) : CmdLine :=
  if bytes = [] then .command else if sys.saves then .redirected bytes else .missing

theorem getInput_spec (sys : System) (input : Input) (d : Document) :
    ∃ start stop, IsInputRange input d start stop ∧ start ≤ d.text.length ∧
      (getInput input d).2.text = d.text ∧
      (if (input == .doc) = true then (0, (getInput input d).2.text.length)
        else ((getInput input d).2.start, (getInput input d).2.stop)) = (start, stop) ∧
      makeCmd sys (getInput input d).1 = cmdLine sys (stdin input d start stop) := by
  obtain ⟨hle, hlen⟩ := d.start_le_stop
  have hmake : ∀ t, makeCmd sys (some t) = cmdLine sys (Utf8.encode t) := by
    intro t
    rcases t with _ | ⟨c, cs⟩
    · rfl
    · have hne : Utf8.encode (c :: cs) ≠ [] := by simp [Utf8.encode_eq_nil]
      rw [cmdLine, if_neg hne]
      rfl
  cases input with
  | none => exact ⟨d.start, d.stop, ⟨rfl, rfl⟩, by omega, rfl, rfl, rfl⟩
  | docCopy => exact ⟨d.start, d.stop, ⟨rfl, rfl⟩, by omega, rfl, rfl, rfl⟩
  | selection => exact ⟨d.start, d.stop, ⟨rfl, rfl⟩, by omega, rfl, rfl, hmake _⟩
  | doc => exact ⟨0, d.text.length, ⟨rfl, rfl⟩, by omega, rfl, rfl, hmake _⟩
  | lines =>
    obtain ⟨hstart, hstop⟩ := lineRange_le d
    refine ⟨_, _, isLines_lineRange d, by omega, rfl, ?_, hmake _⟩
    have hmin : min (min (lineRange d).2 d.text.length) (min (lineRange d).1 d.text.length) =
        (lineRange d).1 := by omega
    have hmax : max (min (lineRange d).2 d.text.length) (min (lineRange d).1 d.text.length) =
        (lineRange d).2 := by omega
    exact Prod.ext hmin hmax

/-- The command runs, exits with 0, and writes the text `t`. -/
def Answers (sys : System) (bytes : List UInt8) (t : List Char) : Prop :=
  sys.spawnError = none ∧ (bytes ≠ [] → sys.saves = true) ∧
    (sys.command bytes).status = .exited 0 ∧ Utf8.decode (sys.command bytes).out = some t

/-- What a run of a tool is for: the answer of the command replaces the range, and everything else
is reported and changes nothing. -/
structure Meets (sys : System) (d : Document) (bytes : List UInt8) (start stop : ℕ)
    (after : Document × Option Dialog) : Prop where
  replaced : ∀ t, Answers sys bytes t →
    after.1.text = d.text.take start ++ (t ++ d.text.drop stop) ∧ after.2 = none
  reported : (∀ t, ¬ Answers sys bytes t) → after.1.text = d.text ∧ after.2.isSome

/-- The status of the shell: with an input, that of `rm`. -/
def seen (sys : System) (bytes : List UInt8) : WaitStatus :=
  if bytes = [] then (sys.command bytes).status else sys.rmStatus

/-- The shell succeeds where the command does, and what the command then writes is a text without
a zero byte. -/
structure Faithful (sys : System) (bytes : List UInt8) : Prop where
  status : seen sys bytes = .exited 0 ↔
    (sys.command bytes).status = .exited 0 ∧ (Utf8.decode (sys.command bytes).out).isSome
  no_zero : seen sys bytes = .exited 0 → 0 ∉ (sys.command bytes).out

/-- The whole of the output is inserted where no zero byte ends it. -/
theorem decode_takeWhile {out : List UInt8} {t : List Char} (h : Utf8.decode out = some t) :
    (Utf8.decode (out.takeWhile (· ≠ 0))).getD [] = t ↔ 0 ∉ out := by
  constructor
  · intro ht hzero
    cases hcut : Utf8.decode (out.takeWhile (· ≠ 0)) with
    | none =>
      obtain rfl : [] = t := by rwa [hcut, Option.getD_none] at ht
      simp [← Utf8.encode_of_decode h] at hzero
    | some t' =>
      obtain rfl : t' = t := by rwa [hcut, Option.getD_some] at ht
      have heq := (Utf8.encode_of_decode h).symm.trans (Utf8.encode_of_decode hcut)
      rw [heq] at hzero
      simpa using List.mem_takeWhile_imp hzero
  · intro hzero
    have hall : out.takeWhile (· ≠ 0) = out := by
      rw [List.takeWhile_eq_self_iff]
      intro b hb
      have hne : b ≠ 0 := fun h => hzero (h ▸ hb)
      simpa using hne
    rw [hall, h, Option.getD_some]

/-- A run of the command line, if the shell is started and the input is saved. -/
theorem sh_cmdLine {bytes : List UInt8} (h : bytes ≠ [] → sys.saves = true) :
    (sys.sh (cmdLine sys bytes)).status = seen sys bytes ∧
      (sys.sh (cmdLine sys bytes)).out = (sys.command bytes).out := by
  by_cases hb : bytes = []
  · simp [cmdLine, seen, System.sh, hb]
  · simp [cmdLine, seen, System.sh, hb, h hb]

theorem runCommand_failed {text : Option (List Char)} (hspawn : sys.spawnError = none)
    (h : (sys.sh (makeCmd sys text)).status ≠ .exited 0) :
    ∃ dialog, runCommand sys text = .error dialog := by
  simp only [runCommand, hspawn, h, ne_eq, not_false_iff, if_true]
  exact ⟨_, rfl⟩

theorem runCommand_done {text : Option (List Char)} (hspawn : sys.spawnError = none)
    (h : (sys.sh (makeCmd sys text)).status = .exited 0) :
    runCommand sys text = .ok (sys.sh (makeCmd sys text)).out := by
  simp only [runCommand, hspawn, h, ne_eq, not_true, if_false]

/-- Exactly when a run does what it is for, for every input, text, selection and behaviour of the
command. -/
theorem run_iff (sys : System) (input : Input) (d : Document) :
    ∃ start stop, IsInputRange input d start stop ∧
      (Meets sys d (stdin input d start stop) start stop (run sys input d) ↔
        (sys.spawnError = none → (stdin input d start stop ≠ [] → sys.saves = true) →
          Faithful sys (stdin input d start stop))) := by
  obtain ⟨start, stop, hrange, hstart, htext, hselected, hcmd⟩ := getInput_spec sys input d
  refine ⟨start, stop, hrange, ?_⟩
  generalize stdin input d start stop = bytes at hcmd ⊢
  generalize hget : getInput input d = got at htext hselected hcmd
  obtain ⟨text, d'⟩ := got
  have hrun : run sys input d = match runCommand sys text with
      | .error dialog => (d', some dialog)
      | .ok out => (insertText d' out (input == .doc), none) := by
    rw [run, hget]
  have hfailed : (∃ dialog, runCommand sys text = .error dialog) →
      (Meets sys d bytes start stop (run sys input d) ↔ ∀ t, ¬ Answers sys bytes t) := by
    rintro ⟨dialog, hdialog⟩
    rw [hrun, hdialog]
    refine ⟨fun h t ht => ?_, fun h => ⟨fun t ht => absurd ht (h t), fun _ => ⟨htext, rfl⟩⟩⟩
    simpa using (h.replaced t ht).2
  cases hspawn : sys.spawnError with
  | some error =>
    rw [hfailed ⟨_, by simp only [runCommand, hspawn]; rfl⟩]
    exact iff_of_true (fun t ht => by simp [Answers, hspawn] at ht) nofun
  | none =>
    by_cases hsave : bytes ≠ [] → sys.saves = true
    · obtain ⟨hstatus, hout⟩ := sh_cmdLine hsave
      rw [← hcmd] at hstatus hout
      have hanswers : ∀ t, Answers sys bytes t ↔ (sys.command bytes).status = .exited 0 ∧
          Utf8.decode (sys.command bytes).out = some t := by
        exact fun t => ⟨fun h => h.2.2, fun h => ⟨hspawn, hsave, h⟩⟩
      by_cases hseen : seen sys bytes = .exited 0
      · have hok := runCommand_done hspawn (hstatus.trans hseen)
        have hinsert := text_insertText (sys.command bytes).out hselected (htext ▸ hstart)
        rw [htext] at hinsert
        rw [hrun, hok, hout]
        constructor
        · intro h _ _
          obtain ⟨t, ht⟩ : ∃ t, Answers sys bytes t := by
            by_contra hno
            simpa using (h.reported (not_exists.1 hno)).2
          obtain ⟨hzero, hdecode⟩ := (hanswers t).1 ht
          refine ⟨iff_of_true hseen ⟨hzero, by simp [hdecode]⟩, fun _ => ?_⟩
          have htext' := hinsert.symm.trans (h.replaced t ht).1
          exact (decode_takeWhile hdecode).1
            (List.append_cancel_right (List.append_cancel_left htext'))
        · intro h
          obtain ⟨hiff, hno_zero⟩ := h rfl hsave
          obtain ⟨hzero, hsome⟩ := hiff.1 hseen
          refine ⟨fun t ht => ⟨?_, rfl⟩, fun hno => ?_⟩
          · have hdecode := ((hanswers t).1 ht).2
            exact hinsert.trans (by rw [(decode_takeWhile hdecode).2 (hno_zero hseen)])
          · obtain ⟨t, ht⟩ := Option.isSome_iff_exists.1 hsome
            exact absurd ((hanswers t).2 ⟨hzero, ht⟩) (hno t)
      · rw [hfailed (runCommand_failed hspawn (hstatus ▸ hseen))]
        simp only [hanswers, not_and]
        constructor
        · intro h _ _
          refine ⟨iff_of_false hseen ?_, fun h => absurd h hseen⟩
          rintro ⟨hzero, hsome⟩
          obtain ⟨t, ht⟩ := Option.isSome_iff_exists.1 hsome
          exact h t hzero ht
        · intro h t hzero ht
          exact hseen ((h trivial hsave).status.2 ⟨hzero, by simp [ht]⟩)
    · obtain ⟨hb, hsaves⟩ : bytes ≠ [] ∧ sys.saves = false := by simpa using hsave
      have hmissing : sys.sh (makeCmd sys text) = sys.noCommand := by
        rw [hcmd]
        simp [cmdLine, hb, hsaves, System.sh]
      rw [hfailed (runCommand_failed hspawn (hmissing ▸ sys.noCommand_fails))]
      exact iff_of_true (fun t ht => hsave ht.2.1) fun _ h => absurd h hsave

/-- A command that fails without a word erases the selection, and nothing is reported. -/
theorem run_erases_selection :
    let sys : System := ⟨none, true, fun _ => ⟨.exited 1, [], []⟩, .exited 0, [],
      ⟨.exited 2, [], []⟩, by decide⟩
    let d : Document := ⟨['a', 'b'], 0, 1, by decide, by decide⟩
    ¬ ∃ start stop, IsInputRange .selection d start stop ∧
      Meets sys d (stdin .selection d start stop) start stop (run sys .selection d) := by
  rintro sys d ⟨start, stop, ⟨rfl, rfl⟩, h⟩
  have hno : ∀ t, ¬ Answers sys (stdin .selection d d.start d.stop) t :=
    fun t ht => absurd ht.2.2.1 (by decide)
  exact absurd (h.reported hno).2 (by decide)

end Medit.ShellCommand
