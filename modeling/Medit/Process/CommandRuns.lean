import Mathlib.Algebra.Group.Nat.Defs
import Mathlib.Algebra.GroupWithZero.Nat
import Mathlib.Algebra.Ring.Int.Defs
import Medit.Process.Command

/-!
# The lines of a command

What a command emits in any run: the lines of its output, and its end. The lines that are left over
when a pipe hangs up are read by another reader, which sees an empty line behind a last newline.

## Main definitions

* `lines` — the lines of a text.
* `MooCmd.Allowed` — nothing that ends in a newline is left over.

## Main results

* `MooCmd.ready_hup_out` — what is emitted when the pipe of the output hangs up.
* `MooCmd.emits_lines` — the lines of the output are emitted, and then the end.
-/

namespace Medit

open Paragraphs

/-! ## Two readers -/

/-- The end of the last line of a text, if it has one. -/
def lastTerm (text : List UInt8) : List UInt8 :=
  let line := mooLineReaderGetLine text
  if _h : line.2.1 = [] ∨ line.2.2 = [] then line.2.1 else lastTerm line.2.2
termination_by text.length
decreasing_by exact length_mooLineReaderGetLine text (not_or.1 ‹_›).1

/-- The lines that a reader sees more than there are. -/
def extraLines (text : List UInt8) : List (List UInt8) := if lastTerm text = [] then [] else [[]]

/-- When the pipe hangs up nothing is left over that ends in a newline: all lines but the last one
have less than 4096 bytes together, or the last one has no end. -/
def HangsUpWell (text : List UInt8) : Prop :=
  lastTerm text ≠ [] → ((textLines text).dropLast.map List.length).sum < 4096

instance (text : List UInt8) : Decidable (HangsUpWell text) := inferInstanceAs (Decidable (_ → _))

theorem lastTerm_nil : lastTerm [] = [] := by
  rw [lastTerm]
  rfl

theorem lastTerm_rest {text : List UInt8} (h : (mooLineReaderGetLine text).2.2 ≠ []) :
    lastTerm text = lastTerm (mooLineReaderGetLine text).2.2 := by
  have hterm : (mooLineReaderGetLine text).2.1 ≠ [] := mt (mooLineReaderGetLine_eq text).2 h
  rw [lastTerm]
  simp [h, hterm]

theorem readerLines_cons (text : List UInt8) : readerLines text = (mooLineReaderGetLine text).1 ::
    (lineReaderRest (mooLineReaderGetLine text).2.1 (mooLineReaderGetLine text).2.2).elim []
      readerLines := by
  rw [readerLines]
  split <;> simp [*]

/-- A reader goes through the lines, and through an empty one behind the last end of a line. -/
theorem readerLines_eq {text : List UInt8} (h : text ≠ []) :
    readerLines text = textLines text ++ extraLines text := by
  induction hn : text.length using Nat.strong_induction_on generalizing text with
  | _ n ih =>
    have hnil := (mooLineReaderGetLine_eq text).2
    have hshort := length_mooLineReaderGetLine text
    rw [readerLines_cons, textLines_cons h]
    by_cases hterm : (mooLineReaderGetLine text).2.1 = []
    · simp [lineReaderRest, hterm, hnil hterm, textLines_nil, extraLines, lastTerm]
    · by_cases hrest : (mooLineReaderGetLine text).2.2 = []
      · have hlast : readerLines [] = [[]] := readerLines_cons []
        simp [lineReaderRest, hterm, hrest, textLines_nil, extraLines, lastTerm, hlast]
      · have hlast := ih _ (hn ▸ hshort hterm) hrest rfl
        simp only [lineReaderRest, hterm, if_false, Option.elim_some, hlast, extraLines,
          lastTerm_rest hrest, List.cons_append]

/-! ## Lines of characters -/

/-- The lines that symbols make. -/
def symLines : List Sym → List (List Char)
  | [] => []
  | .eol _ :: S => [] :: symLines S
  | .char c _ :: S =>
    match symLines S with
    | [] => [[c]]
    | line :: lines => (c :: line) :: lines

attribute [elab_as_elim] symLines.induct_unfolding

/-- The lines of a text, without their ends. There is no empty line behind the last end of one. -/
def lines (cs : List Char) : List (List Char) := symLines (paragraphs cs)

theorem symLines_append {S : List Sym} (hS : ∀ s ∈ S, s.isEol = false) (d : Delim) (S' : List Sym) :
    symLines (S ++ .eol d :: S') = text S :: symLines S' := by
  induction S with
  | nil => rfl
  | cons s S ih =>
    cases s with
    | eol d => simp [Sym.isEol] at hS
    | char c hc =>
      have := ih fun s hs => hS s (List.mem_cons_of_mem _ hs)
      simp only [List.cons_append, symLines, this, text_cons]
      rfl

theorem symLines_eq {S : List Sym} (hS : ∀ s ∈ S, s.isEol = false) (hne : S ≠ []) :
    symLines S = [text S] := by
  induction S with
  | nil => exact absurd rfl hne
  | cons s S ih =>
    cases s with
    | eol d => simp [Sym.isEol] at hS
    | char c hc =>
      by_cases hnil : S = []
      · subst hnil
        rfl
      · simp only [symLines, ih (fun s hs => hS s (List.mem_cons_of_mem _ hs)) hnil, text_cons]
        rfl

/-- The bytes of a text are cut where the text is. -/
theorem textLines_encode (cs : List Char) :
    textLines (Utf8.encode cs) = (lines cs).map Utf8.encode := by
  induction hn : (Utf8.encode cs).length using Nat.strong_induction_on generalizing cs with
  | _ n ih =>
    by_cases hcs : cs = []
    · subst hcs
      exact textLines_nil
    have hne : Utf8.encode cs ≠ [] := mt Utf8.encode_eq_nil.1 hcs
    obtain ⟨S, hS, htext, hpar⟩ := paragraphs_getLineChars cs
    have hshort := length_mooLineReaderGetLine (Utf8.encode cs)
    rw [mooLineReaderGetLine_encode] at hshort
    rw [textLines_cons hne, mooLineReaderGetLine_encode]
    dsimp only at hshort ⊢
    cases hterm : (getLineChars cs).2.1 with
    | none =>
      rw [hterm, Option.elim_none, List.append_nil] at hpar
      have hSne : S ≠ [] := by
        rintro rfl
        exact hcs (by simpa using congrArg text hpar)
      rw [getLineChars_nil_term hterm, Utf8.encode_nil, textLines_nil, lines, hpar,
        symLines_eq hS hSne, htext]
      rfl
    | some d =>
      rw [hterm, Option.elim_some] at hpar
      have hlt : (Utf8.encode (getLineChars cs).2.2).length < n := by
        refine hn ▸ hshort ?_
        rw [hterm]
        exact mt Utf8.encode_eq_nil.1 (by cases d <;> simp [termChars, Delim.chars])
      have hlines : lines cs = (getLineChars cs).1 :: lines (getLineChars cs).2.2 := by
        rw [lines, hpar, symLines_append hS, htext]
        rfl
      rw [ih _ hlt _ rfl, hlines, List.map_cons]

theorem mem_of_mem_symLines {S : List Sym} {line : List Char} (h : line ∈ symLines S) {c : Char}
    (hc : c ∈ line) : c ∈ text S := by
  induction S generalizing line with
  | nil => simp [symLines] at h
  | cons s S ih =>
    rw [text_cons, List.mem_append]
    cases s with
    | eol d =>
      rcases List.mem_cons.1 h with rfl | h
      · simp at hc
      · exact Or.inr (ih h hc)
    | char c' hc' =>
      unfold symLines at h
      cases hS : symLines S with
      | nil =>
        simp only [hS, List.mem_singleton] at h
        subst h
        exact Or.inl hc
      | cons first others =>
        simp only [hS, List.mem_cons] at h
        rcases h with rfl | h
        · rcases List.mem_cons.1 hc with rfl | hc
          · exact Or.inl (by simp [Sym.chars])
          · exact Or.inr (ih (hS ▸ List.mem_cons_self) hc)
        · exact Or.inr (ih (hS ▸ List.mem_cons_of_mem _ h) hc)

/-- Each line of a text is one that can be emitted as it is. -/
theorem gUtf8Validate_of_mem {cs : List Char} (hcs : '\x00' ∉ cs) {line : List UInt8}
    (h : line ∈ textLines (Utf8.encode cs)) : gUtf8Validate line = true := by
  rw [textLines_encode] at h
  obtain ⟨l, hl, rfl⟩ := List.mem_map.1 h
  have hz : '\x00' ∉ l := fun hmem => hcs (by simpa using mem_of_mem_symLines hl hmem)
  have := Utf8.zero_notMem_encode hz
  simp [gUtf8Validate, this]

/-! ## One call of the watch -/

/-- What the loop of `command_out_or_err` does: it takes lines until 4096 bytes of them have been
seen. -/
structure LinesRead (ch : GIOChannel) (count : ℕ)
    (r : GIOChannel × GIOStatus × List (List UInt8)) : Prop where
  closed : r.1.closed = ch.closed
  lines : r.2.2 ++ textLines r.1.rest = textLines ch.rest
  suffix : r.1.rest <:+ ch.rest
  term : r.1.rest ≠ [] → lastTerm r.1.rest = lastTerm ch.rest
  eof : r.2.1 = .eof → r.1.closed = true ∧ r.1.rest = []
  left : ch.closed = true → (r.1.rest = [] ↔
    ch.rest = [] ∨ count + ((textLines ch.rest).dropLast.map List.length).sum < 4096)

theorem readLines_spec {cut : ℕ → ℕ} (ch : GIOChannel) {status : GIOStatus} {count : ℕ}
    (hz : 0 ∉ ch.rest) (hstatus : status ≠ .eof) :
    LinesRead ch count (readLines cut ch status count) := by
  fun_induction readLines cut ch status count with
  | case1 ch status count hcount ch' status' hread =>
    have hspec := @GIOChannel.readLine_spec cut ch hz
    rw [hread] at hspec
    obtain ⟨hclosed, hrest, hlast⟩ := hspec
    refine ⟨hclosed, by simp [hrest], by simp [hrest], by simp [hrest], ?_, ?_⟩
    · rintro rfl
      obtain ⟨h, -⟩ | ⟨-, hc, hnil⟩ := hlast
      · cases h
      · exact ⟨hclosed.trans hc, hrest.trans hnil⟩
    · intro hc
      obtain ⟨-, hopen⟩ | ⟨-, -, hnil⟩ := hlast
      · simp [hc] at hopen
      · simp [hrest, hnil]
  | case2 ch status count hcount ch' status' line term hread ch'' status'' lines hloop ih =>
    have hspec := @GIOChannel.readLine_spec cut ch hz
    rw [hread] at hspec
    obtain ⟨hclosed, rfl, hne, hline⟩ := hspec
    have hcut := mooLineReaderGetLine_eq ch.rest
    have hlines := textLines_cons hne
    rw [hline] at hcut hlines
    have hsuffix : ch'.rest <:+ ch.rest := ⟨line ++ term, hcut.1.symm⟩
    obtain ⟨hc', hlines', hsuffix', hterm', heof', hleft'⟩ :=
      hloop ▸ ih (fun h => hz (hsuffix.subset h)) (by simp)
    have hrest : (mooLineReaderGetLine ch.rest).2.2 = ch'.rest := by rw [hline]
    refine ⟨hc'.trans hclosed, ?_, hsuffix'.trans hsuffix, ?_, heof', ?_⟩
    · rw [List.cons_append, hlines', hlines]
    · intro hne''
      have hne' : ch'.rest ≠ [] := by
        intro h
        exact hne'' (List.suffix_nil.1 (h ▸ hsuffix'))
      rw [hterm' hne'', @lastTerm_rest ch.rest (by rwa [hrest]), hrest]
    · intro hc
      rw [hleft' (hclosed.trans hc), hlines]
      by_cases hnil : ch'.rest = []
      · simp only [hnil, textLines_nil, hne, List.dropLast_singleton]
        simpa using hcount
      · have hne' : textLines ch'.rest ≠ [] := by
          rw [textLines_cons hnil]
          simp
        rw [List.dropLast_cons_of_ne_nil hne']
        simp only [hnil, hne, false_or, List.map_cons, List.sum_cons]
        omega
  | case3 ch status count hcount =>
    refine ⟨rfl, rfl, List.suffix_rfl, fun _ => rfl, fun h => absurd h hstatus, fun _ => ?_⟩
    constructor
    · exact Or.inl
    · rintro (h | h)
      · exact h
      · omega

namespace MooCmd

variable {world : CmdWorld}

/-- The signal of a line. -/
def lineSignal (err : Bool) (line : List UInt8) : CmdSignal :=
  if err then .stderrLine line else .stdoutLine line

/-- Lines are emitted, and nothing else changes; valid ones are emitted as they are. -/
theorem foldl_processLine (err : Bool) (lines : List (List UInt8)) (cmd : MooCmd) :
    ∃ emitted, lines.foldl (fun cmd line => cmd.processLine world err line) cmd =
        { cmd with signals := cmd.signals ++ emitted.map (lineSignal err) } ∧
      ((∀ line ∈ lines, gUtf8Validate line = true) → emitted = lines) := by
  induction lines generalizing cmd with
  | nil => exact ⟨[], by simp, fun _ => rfl⟩
  | cons line lines ih =>
    obtain ⟨first, hfirst, hvalid⟩ : ∃ first, cmd.processLine world err line =
        { cmd with signals := cmd.signals ++ first.map (lineSignal err) } ∧
        (gUtf8Validate line = true → first = [line]) := by
      have hreal (h : gUtf8Validate line = true) : cmd.realLine world line = some line := by
        simp [realLine, h]
      unfold processLine
      cases hline : cmd.realLine world line with
      | none => exact ⟨[], by simp, fun h => by simpa [hline] using hreal h⟩
      | some real => exact ⟨[real], rfl, fun h => by simpa [hline] using hreal h⟩
    obtain ⟨emitted, heq, hall⟩ := ih (cmd.processLine world err line)
    refine ⟨first ++ emitted, ?_, fun h => ?_⟩
    · rw [List.foldl_cons, heq, hfirst]
      simp
    · rw [hvalid (h line List.mem_cons_self), hall fun l hl => h l (List.mem_cons_of_mem _ hl)]
      rfl

theorem gStrdup_of_valid {line : List UInt8} (h : gUtf8Validate line = true) :
    gStrdup line = line := by
  rw [gUtf8Validate, Bool.and_eq_true] at h
  refine List.takeWhile_eq_self_iff.2 fun b hb => ?_
  have hz : 0 ∉ line := by simpa using h.2
  exact decide_eq_true fun hb0 => hz (hb0 ▸ hb)

theorem channel_setChannel (cmd : MooCmd) (out : Bool) (ch : Option GIOChannel) :
    (cmd.setChannel out ch).channel out = ch := by
  cases out <;> rfl

/-- What is left over is emitted, with an empty line when it ends in a newline. -/
theorem tryChannelLeftover_eq (cmd : MooCmd) (ch : GIOChannel) (out : Bool) :
    ∃ emitted, cmd.tryChannelLeftover world ch out =
        { cmd with signals := cmd.signals ++ emitted.map (lineSignal (!out)) } ∧
      (ch.closed = true → 0 ∉ ch.rest → (∀ line ∈ textLines ch.rest, gUtf8Validate line = true) →
        emitted = textLines ch.rest ++ extraLines ch.rest) := by
  unfold tryChannelLeftover
  cases hread : (ch.readToEnd (world.cut out)).2 with
  | none =>
    refine ⟨[], by simp, fun hc => ?_⟩
    have := (@GIOChannel.readToEnd_spec (world.cut out) ch hc).1
    simp [hread] at this
  | some text =>
    obtain ⟨emitted, heq, hall⟩ := foldl_processLine (!out)
      ((mooLineReaderInit (gStrdup text)).elim [] readerLines) cmd
    refine ⟨emitted, heq, fun hc hz hvalid => ?_⟩
    obtain rfl : text = ch.rest := by
      have := (@GIOChannel.readToEnd_spec (world.cut out) ch hc).1
      simpa [hread] using this
    have hdup : gStrdup ch.rest = ch.rest := by
      refine List.takeWhile_eq_self_iff.2 fun b hb => decide_eq_true fun hb0 => hz (hb0 ▸ hb)
    rw [hdup] at hall
    unfold mooLineReaderInit at hall
    split_ifs at hall with hnil
    · rw [hall (by simp), hnil, textLines_nil]
      simp [extraLines, lastTerm_nil]
    · rw [Option.elim_some, readerLines_eq hnil] at hall
      refine hall fun line hline => ?_
      rcases List.mem_append.1 hline with hline | hline
      · exact hvalid line hline
      · unfold extraLines at hline
        split_ifs at hline
        · simp at hline
        · rw [List.mem_singleton.1 hline]
          decide

/-- What a call of the watch does: the watch is kept and some lines are emitted, or the watch is
removed and all lines are. -/
theorem ready_eq {cmd : MooCmd} {ch : GIOChannel} {out hup : Bool} (hch : cmd.channel out = some ch)
    (hhup : hup = true → ch.closed = true) :
    ∃ emitted, let cmd' : MooCmd :=
        { cmd with signals := cmd.signals ++ emitted.map (lineSignal (!out)) }
      (hup = false ∧ ∃ ch', cmd.step world (.ready out hup) = cmd'.setChannel out (some ch') ∧
        (0 ∉ ch.rest → (∀ line ∈ textLines ch.rest, gUtf8Validate line = true) →
          emitted ++ textLines ch'.rest = textLines ch.rest ∧ ch'.rest <:+ ch.rest)) ∨
      (cmd.step world (.ready out hup) = (cmd'.setChannel out none).checkStop ∧
        (0 ∉ ch.rest → (∀ line ∈ textLines ch.rest, gUtf8Validate line = true) →
          emitted = textLines ch.rest ++ if hup = true ∧ ¬ HangsUpWell ch.rest then [[]] else [])) := by
  have hgo : (hup && !ch.closed) = false := by cases hup <;> simp_all
  rcases hloop : readLines (world.cut out) ch .normal 0 with ⟨ch', status, lines⟩
  obtain ⟨emitted, heq, hall⟩ :=
    @foldl_processLine world (!out) (lines.map gStrdup) cmd
  rw [List.foldl_map] at heq
  have hread (hz : 0 ∉ ch.rest) : LinesRead ch 0 (ch', status, lines) :=
    hloop ▸ readLines_spec ch hz (by simp)
  -- valid lines are emitted as they are
  have hlines (hz : 0 ∉ ch.rest) (hvalid : ∀ line ∈ textLines ch.rest, gUtf8Validate line = true) :
      emitted = lines := by
    have hv : ∀ line ∈ lines, gUtf8Validate line = true := fun line hline =>
      hvalid line ((hread hz).lines ▸ List.mem_append_left _ hline)
    have hmap : lines.map gStrdup = lines :=
      (List.map_congr_left fun line hline => gStrdup_of_valid (hv line hline)).trans (List.map_id _)
    rw [hmap] at hall
    exact hall hv
  by_cases hkeep : (!hup && status != .eof) = true
  · refine ⟨emitted, Or.inl ⟨by simp_all, ch', ?_, fun hz hvalid => ?_⟩⟩
    · simp only [step, hch, hgo, commandOutOrErr, hloop, heq, hkeep, if_true]
      rfl
    · rw [hlines hz hvalid]
      exact ⟨(hread hz).lines, (hread hz).suffix⟩
  · obtain ⟨more, hmore, hleft⟩ := tryChannelLeftover_eq
      ({ cmd with signals := cmd.signals ++ emitted.map (lineSignal (!out)) }.setChannel out ch')
      ch' out
    refine ⟨emitted ++ more, Or.inr ⟨?_, fun hz hvalid => ?_⟩⟩
    · have hstep : cmd.step world (.ready out hup) =
          (({ cmd with signals := cmd.signals ++ emitted.map (lineSignal (!out)) }).setChannel out
            (some ch')).watchRemoved world out := by
        simp only [step, hch, hgo, commandOutOrErr, hloop, heq, hkeep]
        rfl
      rw [hstep, watchRemoved, channel_setChannel]
      dsimp only
      rw [hmore]
      cases out <;> simp [setChannel]
    · obtain ⟨hclosed, hcut, hsuffix, hterm, heof, hnone⟩ := hread hz
      dsimp only at hclosed hcut hsuffix hterm heof hnone
      have hc' : ch'.closed = true := by
        cases hup with
        | true => exact hclosed.trans (hhup rfl)
        | false => exact (heof (by simpa using hkeep)).1
      have hmem : ∀ line ∈ textLines ch'.rest, gUtf8Validate line = true := fun line hline =>
        hvalid line (hcut ▸ List.mem_append_right _ hline)
      rw [hlines hz hvalid, hleft hc' (fun h => hz (hsuffix.subset h)) hmem, ← List.append_assoc,
        hcut]
      congr 1
      cases hup with
      | false => simp [extraLines, (heof (by simpa using hkeep)).2, lastTerm_nil]
      | true =>
        have hnone := hnone (hhup rfl)
        by_cases hnil : ch'.rest = []
        · have hwell : HangsUpWell ch.rest := by
            rcases hnone.1 hnil with h | h
            · exact fun hne => absurd (h ▸ lastTerm_nil) hne
            · exact fun _ => by simpa using h
          simp [hnil, extraLines, lastTerm_nil, hwell]
        · have hleft : extraLines ch'.rest = extraLines ch.rest := by
            rw [extraLines, hterm hnil, extraLines]
          rw [hleft, extraLines]
          unfold HangsUpWell
          have hmany : ¬ ((textLines ch.rest).dropLast.map List.length).sum < 4096 :=
            fun h => hnil (hnone.2 (Or.inr (by simpa using h)))
          by_cases hlast : lastTerm ch.rest = []
          · simp [hlast]
          · rw [if_neg hlast, if_pos ⟨rfl, fun h => hmany (h hlast)⟩]

/-! ## Runs -/

/-- No end of a command is among signals. -/
def NoExit (signals : List CmdSignal) : Prop := ∀ status, .cmdExit status ∉ signals

theorem NoExit.append_lines {signals : List CmdSignal} (h : NoExit signals) (err : Bool)
    (emitted : List (List UInt8)) : NoExit (signals ++ emitted.map (lineSignal err)) := by
  intro status hmem
  rcases List.mem_append.1 hmem with hmem | hmem
  · exact h status hmem
  · obtain ⟨line, -, hline⟩ := List.mem_map.1 hmem
    cases err <;> simp [lineSignal] at hline

theorem stdoutLines_append (s s' : List CmdSignal) :
    stdoutLines (s ++ s') = stdoutLines s ++ stdoutLines s' :=
  List.filterMap_append

theorem stdoutLines_map (err : Bool) (emitted : List (List UInt8)) :
    stdoutLines (emitted.map (lineSignal err)) = if err then [] else emitted := by
  induction emitted with
  | nil => cases err <;> rfl
  | cons line emitted ih => cases err <;> simp_all [stdoutLines, lineSignal]

/-- A command that is running: what it has emitted and what is to come are the lines of the output. -/
structure Going (output : List UInt8) (cmd : MooCmd) : Prop where
  running : cmd.running = true
  lines : stdoutLines cmd.signals ++ (cmd.out.elim [] fun ch => textLines ch.rest) = textLines output
  noZero : ∀ ch, cmd.out = some ch → 0 ∉ ch.rest
  noExit : NoExit cmd.signals

/-- A command that is over: all lines have been emitted, and then the end. -/
structure Over (output : List UInt8) (cmd : MooCmd) : Prop where
  running : cmd.running = false
  noticed : cmd.Noticed
  signals : ∃ pre status, cmd.signals = pre ++ [.cmdExit status] ∧ NoExit pre ∧
    stdoutLines pre = textLines output

/-- What holds in every state of a run. -/
inductive Sound (output : List UInt8) (cmd : MooCmd) : Prop
  | going (h : Going output cmd) (hn : ¬ cmd.Noticed)
  | done (h : Over output cmd)

theorem Going.checkStop {output : List UInt8} {cmd : MooCmd} (h : Going output cmd) :
    Sound output cmd.checkStop := by
  obtain ⟨hrun, hlines, hz, hexit⟩ := h
  unfold MooCmd.checkStop
  by_cases hn : cmd.Noticed
  · obtain ⟨hout, herr, hwatch⟩ := hn
    refine .done ⟨?_, ?_, cmd.signals, cmd.exitStatus, ?_, hexit, by simpa [hout] using hlines⟩ <;>
      simp [hrun, hout, herr, hwatch, cleanup, Noticed]
  · have hstay : (!cmd.childWatch && cmd.out.isNone && cmd.err.isNone) = false := by
      unfold Noticed at hn
      simp only [Bool.and_eq_false_iff, Bool.not_eq_false', Option.isNone_eq_false_iff,
        Option.isSome_iff_ne_none]
      by_contra hall
      push Not at hall
      exact hn ⟨hall.1.2, hall.2, by simpa using hall.1.1⟩
    rw [hrun, hstay]
    exact .going ⟨hrun, hlines, hz, hexit⟩ hn

/-- Lines are emitted of a channel, and what is left of it is kept. -/
theorem Going.emit {output : List UInt8} {cmd : MooCmd} (h : Going output cmd) {out : Bool}
    {ch : GIOChannel} (hch : cmd.channel out = some ch) {emitted : List (List UInt8)}
    {ch' : Option GIOChannel} (hout : out = true →
      emitted ++ (ch'.elim [] fun ch => textLines ch.rest) = textLines ch.rest ∧
      ∀ c, ch' = some c → 0 ∉ c.rest) :
    Going output (({ cmd with signals := cmd.signals ++ emitted.map (lineSignal (!out)) }).setChannel
      out ch') := by
  obtain ⟨hrun, hlines, hz, hexit⟩ := h
  have hexit' := hexit.append_lines (!out) emitted
  cases out with
  | false =>
    refine ⟨hrun, ?_, hz, hexit'⟩
    rw [← hlines]
    simp [setChannel, stdoutLines_append, stdoutLines_map]
  | true =>
    obtain ⟨hcut, hz'⟩ := hout rfl
    have hch : cmd.out = some ch := hch
    refine ⟨hrun, ?_, hz', hexit'⟩
    rw [← hlines, hch, Option.elim_some, ← hcut]
    simp [setChannel, stdoutLines_append, stdoutLines_map]

/-- Nothing is left over, behind which there would be an empty line. -/
def Allowed (cmd : MooCmd) : CmdEvent → Prop
  | .ready true true => ∀ ch, cmd.out = some ch → ch.closed = true → HangsUpWell ch.rest
  | _ => True

/-- What happens to a command that is running. -/
theorem Going.step {cs : List Char} (hcs : '\x00' ∉ cs) {cmd : MooCmd} (world : CmdWorld)
    (h : Going (Utf8.encode cs) cmd) (hn : ¬ cmd.Noticed) (e : CmdEvent) (he : cmd.Allowed e) :
    Sound (Utf8.encode cs) (cmd.step world e) := by
  obtain ⟨hrun, hlines, hz, hexit⟩ := h
  have hvalid (ch : GIOChannel) (hch : cmd.out = some ch) :
      ∀ line ∈ textLines ch.rest, gUtf8Validate line = true := by
    intro line hline
    refine gUtf8Validate_of_mem hcs (hlines ▸ List.mem_append_right _ ?_)
    simpa [hch] using hline
  cases e with
  | close out =>
    unfold Noticed at hn
    cases out with
    | false =>
      exact .going ⟨hrun, hlines, hz, hexit⟩
        (by simpa [MooCmd.step, setChannel, channel, Noticed] using hn)
    | true =>
      refine .going ⟨hrun, ?_, ?_, hexit⟩
        (by simpa [MooCmd.step, setChannel, channel, Noticed] using hn)
      · cases hout : cmd.out with
        | none => simpa [MooCmd.step, setChannel, channel, hout] using hlines
        | some ch => simpa [MooCmd.step, setChannel, channel, hout, GIOChannel.rest] using hlines
      · intro ch hch
        cases hout : cmd.out with
        | none => simp [MooCmd.step, setChannel, channel, hout] at hch
        | some ch₀ =>
          obtain rfl : { ch₀ with closed := true } = ch := by
            simpa [MooCmd.step, setChannel, channel, hout] using hch
          exact hz ch₀ hout
  | exit status =>
    rw [MooCmd.step]
    split_ifs
    · exact Going.checkStop ⟨hrun, hlines, hz, hexit⟩
    · exact .going ⟨hrun, hlines, hz, hexit⟩ hn
  | ready out hup =>
    cases hch : cmd.channel out with
    | none =>
      rw [MooCmd.step, hch]
      exact .going ⟨hrun, hlines, hz, hexit⟩ hn
    | some ch =>
      by_cases hhup : hup = true → ch.closed = true
      · obtain ⟨emitted, ⟨rfl, ch', hstep, hspec⟩ | ⟨hstep, hspec⟩⟩ :=
          ready_eq hch hhup
        · rw [hstep]
          refine .going (Going.emit ⟨hrun, hlines, hz, hexit⟩ hch ?_) ?_
          · rintro rfl
            obtain ⟨hcut, hsuffix⟩ := hspec (hz ch hch) (hvalid ch hch)
            exact ⟨hcut, fun c hc => Option.some.inj hc ▸ fun h => hz ch hch (hsuffix.subset h)⟩
          · cases out <;> simp [Noticed, setChannel]
        · rw [hstep]
          refine (Going.emit ⟨hrun, hlines, hz, hexit⟩ hch ?_).checkStop
          rintro rfl
          have hwell : ¬ (hup = true ∧ ¬ HangsUpWell ch.rest) := by
            rintro ⟨rfl, hbad⟩
            exact hbad (he ch hch (hhup rfl))
          refine ⟨?_, by simp⟩
          rw [hspec (hz ch hch) (hvalid ch hch), if_neg hwell]
          simp
      · have hearly : (hup && !ch.closed) = true := by simpa using hhup
        simp only [MooCmd.step, hch, hearly, if_true]
        exact .going ⟨hrun, hlines, hz, hexit⟩ hn

/-- Nothing happens to a command that is over. -/
theorem Over.step {output : List UInt8} {cmd : MooCmd} (world : CmdWorld) (h : Over output cmd)
    (e : CmdEvent) : cmd.step world e = cmd := by
  obtain ⟨hout, herr, hwatch⟩ := h.noticed
  cases e with
  | close out =>
    obtain ⟨_, _, _, _, out', err', _⟩ := cmd
    obtain rfl : out' = none := hout
    obtain rfl : err' = none := herr
    cases out <;> rfl
  | ready out hup => cases out <;> simp [MooCmd.step, channel, hout, herr]
  | exit status => simp [MooCmd.step, hwatch]

section

variable {world : CmdWorld} {utf8Output : Bool} {cs : List Char} {errors : Option (List UInt8)}

theorem sound_of_run (hcs : '\x00' ∉ cs) {cmd : MooCmd}
    (h : Machine.Reachable (MooCmd.step world) Allowed
      (runCommand utf8Output (Utf8.encode cs) errors) cmd) : Sound (Utf8.encode cs) cmd := by
  refine h.invariant (.going ⟨rfl, rfl, ?_, by simp [NoExit, runCommand]⟩
    (by simp [Noticed, runCommand])) ?_
  · intro ch hch
    obtain rfl := Option.some.inj hch
    exact Utf8.zero_notMem_encode hcs
  · intro cmd e he hs
    cases hs with
    | going h hn => exact h.step hcs world hn e he
    | done h => exact (h.step world e).symm ▸ .done h

/-- A child closes its output, the pipe is seen to hang up before anything has been read, and the child
exits. -/
def hangUp (world : CmdWorld) (utf8Output : Bool) (cs : List Char) : MooCmd :=
  [.close true, .ready true true, .exit 0].foldl (MooCmd.step world)
    (runCommand utf8Output (Utf8.encode cs) none)

theorem emitted_hangUp (hcs : '\x00' ∉ cs) : (hangUp world utf8Output cs).Noticed ∧
    stdoutLines (hangUp world utf8Output cs).signals = (lines cs).map Utf8.encode ++
      if HangsUpWell (Utf8.encode cs) then [] else [[]] := by
  obtain ⟨emitted, ⟨h, -⟩ | ⟨hstep, hspec⟩⟩ := @ready_eq world
    ((runCommand utf8Output (Utf8.encode cs) none).step world (.close true)) _ true true
    rfl fun _ => rfl
  · cases h
  · have hemitted := hspec (Utf8.zero_notMem_encode hcs) fun line hline =>
      gUtf8Validate_of_mem hcs hline
    refine ⟨?_, ?_⟩ <;> simp only [hangUp, List.foldl_cons, List.foldl_nil, hstep]
    · exact ⟨rfl, rfl, rfl⟩
    · change stdoutLines (([] ++ emitted.map (lineSignal false)) ++ [.cmdExit 0]) = _
      rw [List.nil_append, stdoutLines_append, stdoutLines_map, hemitted, ← textLines_encode]
      by_cases hwell : HangsUpWell (Utf8.encode cs) <;> simp [hwell, stdoutLines, GIOChannel.rest]

/-- The lines of the output are emitted in order and once, and the end of the command after them when
all three ends have been noticed, if nothing that ends in a newline is left over by a watch that sees
the pipe of the output hang up. -/
theorem emits_lines (hcs : '\x00' ∉ cs) {cmd : MooCmd}
    (h : Machine.Reachable (MooCmd.step world) Allowed
      (runCommand utf8Output (Utf8.encode cs) errors) cmd) :
    stdoutLines cmd.signals <+: (lines cs).map Utf8.encode ∧
    (¬ cmd.Noticed → NoExit cmd.signals) ∧
    (cmd.Noticed → stdoutLines cmd.signals = (lines cs).map Utf8.encode ∧
      ∃ pre status, cmd.signals = pre ++ [.cmdExit status] ∧ NoExit pre) := by
  rw [← textLines_encode]
  cases sound_of_run hcs h with
  | going h hn => exact ⟨⟨_, h.lines⟩, fun _ => h.noExit, fun hn' => absurd hn' hn⟩
  | done h =>
    obtain ⟨pre, status, hsignals, hexit, hlines⟩ := h.signals
    have hall : stdoutLines cmd.signals = textLines (Utf8.encode cs) := by
      rw [hsignals, stdoutLines_append, hlines]
      simp [stdoutLines]
    exact ⟨hall ▸ List.prefix_rfl, fun hn => absurd h.noticed hn,
      fun _ => ⟨hall, pre, status, hsignals, hexit⟩⟩

end

/-- A world whose locale has ASCII, and that gives one byte at a time. -/
def asciiWorld : CmdWorld := ⟨false, fun _ => none, fun _ _ => 1⟩

theorem emits_lines_hi : ∃ cmd : MooCmd,
    (stdoutLines cmd.signals <+: (lines ['h', 'i', '\n']).map Utf8.encode ∧
      (¬ cmd.Noticed → NoExit cmd.signals) ∧
      (cmd.Noticed → stdoutLines cmd.signals = (lines ['h', 'i', '\n']).map Utf8.encode ∧
        ∃ pre status, cmd.signals = pre ++ [.cmdExit status] ∧ NoExit pre)) ∧ cmd.Noticed := by
  refine ⟨hangUp asciiWorld true ['h', 'i', '\n'], ?_, (emitted_hangUp (by decide)).1⟩
  refine @emits_lines asciiWorld true _ none (by decide) _ ?_
  refine .step (e := CmdEvent.exit 0) (.step (e := CmdEvent.ready true true)
    (.step (e := CmdEvent.close true) .start trivial) ?_) trivial
  intro ch hch _ _
  obtain rfl := Option.some.inj hch
  simp [GIOChannel.rest, Utf8.encode, String.utf8EncodeChar, textLines, mooLineReaderGetLine]

/-- A line of `n` bytes and another one. -/
def longOutput (n : ℕ) : List Char := List.replicate n 'a' ++ ['\n', 'b', '\n']

theorem mooLineReaderGetLine_replicate (n : ℕ) (bs : List UInt8) :
    mooLineReaderGetLine (List.replicate n 97 ++ 10 :: bs) = (List.replicate n 97, [10], bs) := by
  induction n with
  | zero => simp [mooLineReaderGetLine]
  | succ n ih => simp [List.replicate_succ, mooLineReaderGetLine, ih]

/-- The second line is left over when the first one is long. -/
theorem hangsUpWell_longOutput (n : ℕ) : HangsUpWell (Utf8.encode (longOutput n)) ↔ n < 4096 := by
  have hbytes : Utf8.encode (longOutput n) = List.replicate n 97 ++ 10 :: [98, 10] := by
    rw [longOutput, Utf8.encode_append]
    congr 1
    induction n with
    | zero => rfl
    | succ n ih => rw [List.replicate_succ, encode_cons, ih]; rfl
  have hfirst := mooLineReaderGetLine_replicate n [98, 10]
  have hterm : lastTerm [98, 10] = [10] := by
    rw [lastTerm]
    rfl
  have hline : textLines [98, 10] = [[98]] := by
    rw [textLines_cons (by simp)]
    simp [mooLineReaderGetLine, textLines_nil]
  unfold HangsUpWell
  rw [hbytes, lastTerm_rest (by rw [hfirst]; simp), textLines_cons (by simp), hfirst, hterm, hline]
  simp

/-- There is a line too many when a long line is left over. -/
theorem emits_empty_line : ∃ cmd : MooCmd,
    Machine.Reachable (MooCmd.step asciiWorld) (fun _ _ => True)
      (runCommand true (Utf8.encode (longOutput 4096)) none) cmd ∧ cmd.Noticed ∧
    stdoutLines cmd.signals = (lines (longOutput 4096)).map Utf8.encode ++ [[]] ∧
    ¬ stdoutLines cmd.signals <+: (lines (longOutput 4096)).map Utf8.encode := by
  have hz (n : ℕ) : '\x00' ∉ longOutput n := by
    simp [longOutput]
  obtain ⟨hnoticed, hlines⟩ :=
    emitted_hangUp (hz 4096)
  rw [if_neg (mt (hangsUpWell_longOutput 4096).1 (by omega))] at hlines
  refine ⟨hangUp asciiWorld true (longOutput 4096),
    Machine.Reachable.start.foldl fun _ _ _ => trivial, hnoticed, hlines, fun hpre => ?_⟩
  have hlength := hpre.length_le
  rw [hlines, List.length_append, List.length_singleton] at hlength
  omega

end MooCmd

end Medit
