import Medit.Files.LineEnds

/-!
# Reading lines from a channel

A `GIOChannel` on a pipe: binary, buffered and not blocking, with line ends that are found out. How
much each read of the pipe gives is not known.

## Main definitions

* `GIOChannel` — the buffer, and what is still to be read.
* `GIOChannel.readLine`, `GIOChannel.readToEnd` — `g_io_channel_read_line` and
  `g_io_channel_read_to_end`.
* `textLines` — the lines of a text.

## Main results

* `GIOChannel.readLine_spec` — the line that is read is the first line of what is to come, or there
  is no more for now.
-/

namespace Medit

/-- A channel: what has been read of the pipe and not been taken, what has not been read, whether the
other end has been closed, and how often the pipe has been read. -/
structure GIOChannel where
  buf : List UInt8
  unread : List UInt8
  closed : Bool
  reads : ℕ
deriving DecidableEq

inductive GIOStatus
  | normal
  | eof
  | again
deriving DecidableEq

/-- The first line of a buffer with its end: none when more has to be read to know it. `eof` tells
that there is no more. -/
def scanLine (eof : Bool) : List UInt8 → Option (List UInt8 × List UInt8 × List UInt8)
  | [] => if eof then some ([], [], []) else none
  | b :: bs =>
    if b = 10 then some ([], [10], bs)
    else if b = 13 then
      if bs = [] ∧ !eof then none
      else if bs.head? = some 10 then some ([], [13, 10], bs.tail) else some ([], [13], bs)
    else if b = 0xE2 ∧ [0x80, 0xA9] <+: bs then some ([], psBytes, bs.drop 2)
    else if b = 0 then some ([], [0], bs)
    else (scanLine eof bs).map fun r => (b :: r.1, r.2)

attribute [elab_as_elim] scanLine.induct_unfolding

namespace GIOChannel

/-- All that is to come. -/
def rest (ch : GIOChannel) : List UInt8 := ch.buf ++ ch.unread

variable (cut : ℕ → ℕ)

/-- `g_io_channel_fill_buffer`. The `n`-th read gives `cut n` bytes or what there is, and none when
nothing has been written; there is always something before the end of a closed pipe. -/
def fillBuffer (ch : GIOChannel) : GIOChannel × GIOStatus :=
  let n := cut ch.reads
  let ch := { ch with reads := ch.reads + 1 }
  if ch.unread = [] then (ch, if ch.closed then .eof else .again)
  else if n = 0 ∧ !ch.closed then (ch, .again)
  else ({ ch with buf := ch.buf ++ ch.unread.take (max n 1), unread := ch.unread.drop (max n 1) },
    .normal)

/-- What a read of the pipe does. -/
theorem fillBuffer_spec (ch : GIOChannel) :
    (ch.fillBuffer cut).1.rest = ch.rest ∧ (ch.fillBuffer cut).1.closed = ch.closed ∧
    ((ch.fillBuffer cut).2 = .normal → (ch.fillBuffer cut).1.unread.length < ch.unread.length) ∧
    ((ch.fillBuffer cut).2 ≠ .normal → (ch.fillBuffer cut).1.buf = ch.buf ∧
      (ch.fillBuffer cut).1.unread = ch.unread) ∧
    ((ch.fillBuffer cut).2 = .eof → ch.unread = [] ∧ ch.closed = true) ∧
    (ch.closed = true → (ch.fillBuffer cut).2 ≠ .again) := by
  unfold fillBuffer
  simp only [rest]
  split_ifs with hnil hclosed hagain
  · simp [hclosed, hnil]
  · simp [hclosed]
  · simp_all
  · have hpos := List.length_pos_iff.2 hnil
    simp only [List.append_assoc, List.take_append_drop, List.length_drop]
    simp
    omega

/-- `g_io_channel_read_line`: the line and its end -/
def readLine (ch : GIOChannel) : GIOChannel × GIOStatus × Option (List UInt8 × List UInt8) :=
  match if ch.buf = [] then none else scanLine false ch.buf with
  | some (line, term, rest) => ({ ch with buf := rest }, .normal, some (line, term))
  | none =>
    match _h : ch.fillBuffer cut with
    | (ch', .normal) => ch'.readLine
    | (ch', .again) => (ch', .again, none)
    | (ch', .eof) =>
      if ch'.buf = [] then (ch', .eof, none)
      else
        match scanLine true ch'.buf with
        | some (line, term, rest) => ({ ch' with buf := rest }, .normal, some (line, term))
        | none => (ch', .eof, none)
termination_by ch.unread.length
decreasing_by
  have hlt := (fillBuffer_spec cut ch).2.2.1
  rw [_h] at hlt
  exact hlt rfl

/-- `g_io_channel_read_to_end` -/
def readToEnd (ch : GIOChannel) : GIOChannel × Option (List UInt8) :=
  match _h : ch.fillBuffer cut with
  | (ch', .normal) => ch'.readToEnd
  | (ch', .again) => (ch', none)
  | (ch', .eof) => ({ ch' with buf := [] }, some ch'.buf)
termination_by ch.unread.length
decreasing_by
  have hlt := (fillBuffer_spec cut ch).2.2.1
  rw [_h] at hlt
  exact hlt rfl

end GIOChannel

/-! ## The first line -/

/-- The line that is found in a buffer is the first one of what is to come. -/
theorem scanLine_append {buf line term rest : List UInt8} (h : scanLine false buf = some (line, term, rest))
    (hz : 0 ∉ buf) (more : List UInt8) :
    mooLineReaderGetLine (buf ++ more) = (line, term, rest ++ more) ∧ term ≠ [] := by
  induction buf generalizing line term rest with
  | nil => simp [scanLine] at h
  | cons b bs ih =>
    have hb : b ≠ 0 := by
      rintro rfl
      simp at hz
    rw [scanLine] at h
    rw [List.cons_append, mooLineReaderGetLine]
    split_ifs at h with h10 h13 hnil hhead hps <;>
      try simp only [Option.some.injEq, Prod.mk.injEq] at h
    · obtain ⟨rfl, rfl, rfl⟩ := h
      simp [h10]
    · obtain ⟨rfl, rfl, rfl⟩ := h
      cases bs <;> simp_all
    · obtain ⟨rfl, rfl, rfl⟩ := h
      cases bs <;> simp_all
    · obtain ⟨rfl, rfl, rfl⟩ := h
      obtain ⟨rfl, t, rfl⟩ := hps
      simp [psBytes]
    · obtain ⟨⟨line', term', rest'⟩, hr, heq⟩ := Option.map_eq_some_iff.1 h
      obtain ⟨rfl, rfl, rfl⟩ := heq
      obtain ⟨hline, hterm⟩ := ih hr (fun hmem => hz (by simp [hmem]))
      -- U+2029 is not cut here, as there is an end of a line further on
      have hps' : ¬ (b = 0xE2 ∧ [0x80, 0xA9] <+: bs ++ more) := by
        rintro ⟨rfl, hpre⟩
        refine hps ⟨rfl, ?_⟩
        rcases bs with _ | ⟨c, _ | ⟨d, bs⟩⟩
        · simp [scanLine] at hr
        · obtain rfl : c = 0x80 := by simpa [eq_comm] using (List.cons_prefix_cons.1 hpre).1
          simp [scanLine] at hr
        · simp only [List.cons_append, List.cons_prefix_cons, List.nil_prefix, and_true] at hpre ⊢
          exact hpre
      rw [if_neg h13, if_neg h10, if_neg hps', hline]
      exact ⟨rfl, hterm⟩

/-- At the end of the pipe the rest is a line, if there is no end of one in it. -/
theorem scanLine_eof (buf : List UInt8) (hz : 0 ∉ buf) :
    scanLine true buf = some (mooLineReaderGetLine buf) := by
  induction buf with
  | nil => rfl
  | cons b bs ih =>
    have hb : b ≠ 0 := by
      rintro rfl
      simp at hz
    rw [scanLine, mooLineReaderGetLine, ih fun hmem => hz (by simp [hmem])]
    by_cases h10 : b = 10
    · subst h10
      rfl
    · by_cases h13 : b = 13
      · rw [if_neg h10, if_pos h13, if_pos h13]
        simp only [Bool.not_true, Bool.false_eq_true, and_false, if_false]
        split_ifs <;> rfl
      · simp only [h10, h13, hb, if_false, Option.map_some]
        split_ifs <;> rfl

/-- Something is taken of a buffer. -/
theorem length_scanLine {eof : Bool} {buf line term rest : List UInt8} (hne : buf ≠ [])
    (h : scanLine eof buf = some (line, term, rest)) : rest.length < buf.length := by
  induction buf generalizing line term rest with
  | nil => exact absurd rfl hne
  | cons b bs ih =>
    unfold scanLine at h
    split_ifs at h <;> try simp only [Option.some.injEq, Prod.mk.injEq] at h
    · obtain ⟨-, -, rfl⟩ := h
      simp
    · obtain ⟨-, -, rfl⟩ := h
      simp only [List.length_tail, List.length_cons]
      omega
    · obtain ⟨-, -, rfl⟩ := h
      simp
    · obtain ⟨-, -, rfl⟩ := h
      simp only [List.length_drop, List.length_cons]
      omega
    · obtain ⟨-, -, rfl⟩ := h
      simp
    · obtain ⟨⟨line', term', rest'⟩, hr, heq⟩ := Option.map_eq_some_iff.1 h
      obtain ⟨rfl, rfl, rfl⟩ := heq
      cases bs with
      | nil =>
        cases eof
        · simp [scanLine] at hr
        · obtain ⟨-, -, rfl⟩ : [] = line' ∧ [] = term ∧ [] = rest := by
            simpa [scanLine] using hr
          simp
      | cons c bs =>
        have := ih (by simp) hr
        rw [List.length_cons]
        omega

/-- A line is followed by its end and by the rest. -/
theorem mooLineReaderGetLine_eq (bs : List UInt8) : bs =
    (mooLineReaderGetLine bs).1 ++ (mooLineReaderGetLine bs).2.1 ++ (mooLineReaderGetLine bs).2.2 ∧
      ((mooLineReaderGetLine bs).2.1 = [] → (mooLineReaderGetLine bs).2.2 = []) := by
  induction bs with
  | nil => exact ⟨rfl, fun _ => rfl⟩
  | cons b bs ih =>
    unfold mooLineReaderGetLine
    split_ifs with h13 hhead h10 hps
    · obtain ⟨t, rfl⟩ : ∃ t, bs = 10 :: t := by
        cases bs with
        | nil => simp at hhead
        | cons c t => exact ⟨t, by simpa using hhead⟩
      simp [h13]
    · simp [h13]
    · simp [h10]
    · obtain ⟨rfl, t, rfl⟩ := hps
      simp [psBytes]
    · refine ⟨?_, ih.2⟩
      conv_lhs => rw [ih.1]
      simp

/-! ## Lines -/

/-- The lines of a text; there is none behind the last end of a line. -/
def textLines (text : List UInt8) : List (List UInt8) :=
  if _h : text = [] then []
  else
    let line := mooLineReaderGetLine text
    if _h' : line.2.1 = [] then [line.1] else line.1 :: textLines line.2.2
termination_by text.length
decreasing_by exact length_mooLineReaderGetLine text ‹_›

theorem textLines_nil : textLines [] = [] := by
  rw [textLines, dif_pos rfl]

/-- The first line and the others. -/
theorem textLines_cons {text : List UInt8} (h : text ≠ []) :
    textLines text = (mooLineReaderGetLine text).1 :: textLines (mooLineReaderGetLine text).2.2 := by
  have hrest := (mooLineReaderGetLine_eq text).2
  rw [textLines, dif_neg h]
  dsimp only
  split_ifs with hterm
  · rw [hrest hterm, textLines_nil]
  · rfl

namespace GIOChannel

variable (cut : ℕ → ℕ)

/-- A line and its end are taken away from what is to come. -/
theorem length_readLine {ch ch' : GIOChannel} {status : GIOStatus}
    {line : List UInt8 × List UInt8} (h : ch.readLine cut = (ch', status, some line)) :
    ch'.rest.length < ch.rest.length := by
  fun_induction readLine cut ch with
  | case1 ch line term rest hscan =>
    split_ifs at hscan with hbuf
    obtain ⟨rfl, -⟩ := Prod.mk.inj h
    have := length_scanLine hbuf hscan
    simp only [GIOChannel.rest, List.length_append]
    omega
  | case2 ch hscan ch' hfill ih =>
    obtain ⟨hrest, -⟩ := hfill ▸ fillBuffer_spec cut ch
    exact hrest ▸ ih h
  | case5 ch hscan ch' hfill hne line term rest hscan' =>
    obtain ⟨hrest, -⟩ := hfill ▸ fillBuffer_spec cut ch
    obtain ⟨rfl, -⟩ := Prod.mk.inj h
    have := length_scanLine hne hscan'
    rw [← hrest]
    simp only [GIOChannel.rest, List.length_append]
    omega
  | case3 | case4 | case6 => simp at h

/-- What `g_io_channel_read_line` may give: the first line of what is to come, or nothing. -/
def LineRead (ch : GIOChannel) :
    GIOChannel × GIOStatus × Option (List UInt8 × List UInt8) → Prop
  | (ch', status, some (line, term)) => ch'.closed = ch.closed ∧ status = .normal ∧ ch.rest ≠ [] ∧
      mooLineReaderGetLine ch.rest = (line, term, ch'.rest)
  | (ch', status, none) => ch'.closed = ch.closed ∧ ch'.rest = ch.rest ∧
      (status = .again ∧ ch.closed = false ∨ status = .eof ∧ ch.closed = true ∧ ch.rest = [])

variable {cut}

theorem LineRead.of_eq {ch ch' : GIOChannel} (hrest : ch'.rest = ch.rest)
    (hclosed : ch'.closed = ch.closed) {r : GIOChannel × GIOStatus × Option (List UInt8 × List UInt8)}
    (h : LineRead ch' r) : LineRead ch r := by
  match r with
  | (_, _, some (_, _)) =>
    simp only [LineRead] at h ⊢
    rwa [← hrest, ← hclosed]
  | (_, _, none) =>
    simp only [LineRead] at h ⊢
    rwa [← hrest, ← hclosed]

/-- A line is the first one of what is to come, whatever the reads of the pipe give. -/
theorem readLine_spec (ch : GIOChannel) (hz : 0 ∉ ch.rest) : LineRead ch (ch.readLine cut) := by
  fun_induction readLine cut ch with
  | case1 ch line term rest hscan =>
    split_ifs at hscan with hbuf
    have hzb : 0 ∉ ch.buf := fun h => hz (List.mem_append_left _ h)
    obtain ⟨hline, -⟩ := scanLine_append hscan hzb ch.unread
    exact ⟨rfl, rfl, by simp [GIOChannel.rest, hbuf], hline⟩
  | case2 ch hscan ch' hfill ih =>
    obtain ⟨hrest, hclosed, -⟩ := hfill ▸ fillBuffer_spec cut ch
    exact (ih (by rwa [hrest])).of_eq hrest hclosed
  | case3 ch hscan ch' hfill =>
    obtain ⟨hrest, hclosed, -, -, -, hagain⟩ := hfill ▸ fillBuffer_spec cut ch
    refine ⟨hclosed, hrest, Or.inl ⟨rfl, ?_⟩⟩
    by_contra hc
    exact hagain (by simpa using hc) rfl
  | case4 ch hscan ch' hfill hnil =>
    obtain ⟨hrest, hclosed, -, hsame, heof, -⟩ := hfill ▸ fillBuffer_spec cut ch
    obtain ⟨hunread, hc⟩ := heof rfl
    have hbuf := (hsame (by simp)).1
    refine ⟨hclosed, hrest, Or.inr ⟨rfl, hc, ?_⟩⟩
    rw [rest, ← hbuf, hunread, hnil, List.append_nil]
  | case5 ch hscan ch' hfill hne line term rest' hscan' =>
    obtain ⟨hrest, hclosed, -, hsame, heof, -⟩ := hfill ▸ fillBuffer_spec cut ch
    have hunread : ch'.unread = [] := (hsame (by simp)).2.trans (heof rfl).1
    have hall : ch'.buf = ch.rest := by rw [← hrest, rest, hunread, List.append_nil]
    rw [scanLine_eof _ (hall ▸ hz), Option.some.injEq] at hscan'
    refine ⟨hclosed, rfl, hall ▸ hne, ?_⟩
    rw [← hall, hscan', rest, hunread, List.append_nil]
  | case6 ch hscan ch' hfill hne hscan' =>
    obtain ⟨hrest, hclosed, -, hsame, heof, -⟩ := hfill ▸ fillBuffer_spec cut ch
    have hunread : ch'.unread = [] := (hsame (by simp)).2.trans (heof rfl).1
    have hall : ch'.buf = ch.rest := by rw [← hrest, rest, hunread, List.append_nil]
    rw [scanLine_eof _ (hall ▸ hz)] at hscan'
    cases hscan'

/-- All that is to come is read when the other end has been closed. -/
theorem readToEnd_spec (ch : GIOChannel) (hc : ch.closed = true) :
    (ch.readToEnd cut).2 = some ch.rest ∧ (ch.readToEnd cut).1.rest = [] ∧
      (ch.readToEnd cut).1.closed = true := by
  fun_induction readToEnd cut ch with
  | case1 ch ch' hfill ih =>
    obtain ⟨hrest, hclosed, -⟩ := hfill ▸ fillBuffer_spec cut ch
    rw [← hrest]
    exact ih (hclosed.trans hc)
  | case2 ch ch' hfill =>
    obtain ⟨-, -, -, -, -, hagain⟩ := hfill ▸ fillBuffer_spec cut ch
    exact absurd rfl (hagain hc)
  | case3 ch ch' hfill =>
    obtain ⟨hrest, hclosed, -, hsame, heof, -⟩ := hfill ▸ fillBuffer_spec cut ch
    have hunread : ch'.unread = [] := (hsame (by simp)).2.trans (heof rfl).1
    refine ⟨?_, by simp [rest, hunread], hclosed.trans hc⟩
    rw [← hrest, rest, hunread, List.append_nil]

end GIOChannel

end Medit
