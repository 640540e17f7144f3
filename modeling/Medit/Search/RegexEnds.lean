import Mathlib.Data.Prod.Lex
import Medit.Search.RegexLoops

/-!
# Replacing all matches ends

A round either goes on in a later line with the same search, or goes on with a search that starts
later or, at the same place, after an empty match.

## Main results

* `batchRound_descends`, `interactiveRound_descends` — what a round takes down.
* `replaceRegexAll_ends` — both loops end, and no state of them comes again.
-/

namespace Medit

variable {B : Type*} {G : GtkText B} {regex : MooRegex} {replacement : Replacement} {b : B}

theorem windowEnd_le (regex : MooRegex) {i : ℕ} (hi : i ≤ (G.chars b).length) :
    i ≤ windowEnd G regex b i ∧ windowEnd G regex b i ≤ (G.chars b).length := by
  obtain ⟨hle, hlen⟩ := G.forwardLines_le b i (regex.nLines - 1) hi
  obtain ⟨hle', hlen'⟩ := G.forwardToLineEnd_le b _ hlen
  simp only [windowEnd]
  split_ifs
  · exact ⟨hle, hlen⟩
  · exact ⟨hle.trans hle', hlen'⟩

theorem length_slice (i j : ℕ) : (G.slice b i j).length ≤ j - i := by
  simp only [GtkText.slice, List.length_drop, List.length_take]
  omega

/-! ## What is left -/

/-- What is left to search: a character is two, and the first empty match at a place is one. -/
def remaining (left : ℕ) (wasZeroMatch : Bool) : ℕ := 2 * left + if wasZeroMatch then 0 else 1

/-- A match that is stepped over comes after an empty one. Any other is not empty, or it is the
first empty one in its place. -/
theorem isRepeatedEmptyMatch_cases (matchLen : ℕ) (matchAtStart wasZeroMatch : Bool) :
    isRepeatedEmptyMatch matchLen matchAtStart wasZeroMatch = (true, false) ∧ wasZeroMatch = true ∨
    ∃ now, isRepeatedEmptyMatch matchLen matchAtStart wasZeroMatch = (false, now) ∧
      (now = false ∧ matchLen ≠ 0 ∨
        now = true ∧ matchLen = 0 ∧ (matchAtStart = true → wasZeroMatch = false)) := by
  unfold isRepeatedEmptyMatch
  cases matchAtStart <;> cases wasZeroMatch <;> by_cases h : matchLen = 0 <;> simp [h]

/-- Less is left after a match that is not stepped over. -/
theorem remaining_lt {left left' : ℕ} {before now : Bool}
    (h : now = false ∧ left' < left ∨
      now = true ∧ left' ≤ left ∧ (left' = left → before = false)) :
    remaining left' now < remaining left before := by
  unfold remaining
  rcases h with ⟨rfl, hlt⟩ | ⟨rfl, hle, hbefore⟩
  · rw [if_neg Bool.false_ne_true]
    omega
  · rw [if_pos rfl]
    rcases hle.lt_or_eq with hlt | heq
    · omega
    · rw [hbefore heq, if_neg Bool.false_ne_true]
      omega

/-- Less is left after a step. -/
theorem remaining_step {left : ℕ} (h : left ≠ 0) :
    remaining (left - 1) false < remaining left true := by
  simp only [remaining, if_true, Bool.false_eq_true, if_false]
  omega

/-! ## In a batch -/

/-- A window is inside of the text. -/
structure RegexWindow.Inside (G : GtkText B) (b : B) (w : RegexWindow) : Prop where
  le : w.offset ≤ w.stop
  stop_le : w.stop ≤ (G.chars b).length
  length_le : w.text.length ≤ w.stop - w.offset
  firstLineChars_le : w.firstLineChars ≤ w.text.length

theorem regexWindowLoad_inside (regex : MooRegex) {line : ℕ} (h : line ≤ (G.chars b).length) :
    (regexWindowLoad G regex b line).Inside G b := by
  obtain ⟨hle, hstop⟩ := windowEnd_le regex ((G.lineStart_le b line).trans h)
  exact ⟨hle, hstop, length_slice _ _, (List.takeWhile_prefix _).length_le⟩

/-- What holds at the start of a search. -/
structure BatchState.Inv (G : GtkText B) (b : B) (s : BatchState) : Prop where
  inside : s.w.Inside G b
  start_le : s.start ≤ s.search
  search_le : s.search ≤ (G.chars b).length

def BatchState.measure (G : GtkText B) (b : B) (s : BatchState) : ℕ ×ₗ ℕ :=
  toLex (remaining ((G.chars b).length - s.start) s.wasZeroMatch, (G.chars b).length - s.search)

/-- The search is in a window that it has not left. -/
theorem batchWindow_spec (regex : MooRegex) {s : BatchState} (h : s.Inv G b) :
    (batchWindow G regex b s).w.Inside G b ∧
      G.lineStart b s.search ≤ (batchWindow G regex b s).w.stop ∧
      (batchWindow G regex b s).start = s.start ∧
      (batchWindow G regex b s).search = s.search ∧
      (batchWindow G regex b s).wasZeroMatch = s.wasZeroMatch := by
  unfold batchWindow
  split_ifs with hlt
  · have hload := regexWindowLoad_inside regex h.search_le
    exact ⟨hload, hload.le, rfl, rfl, rfl⟩
  · have hfirst := h.inside.firstLineChars_le
    have hlen := h.inside.length_le
    have hle := h.inside.le
    exact ⟨h.inside, (G.lineStart_le b _).trans (by omega), rfl, rfl, rfl⟩

theorem BatchState.Inv.goOn {s : BatchState} (h : s.w.Inside G b) {start : ℕ}
    (hle : start ≤ (G.chars b).length) : (s.goOn start).Inv G b := ⟨h, le_rfl, hle⟩

/-- The rest of a round after a match that is not stepped over. -/
theorem batchReplace_spec {startPos endPos matchEnd : ℕ} {text : List Char} {s s' : BatchState}
    (hinside : s.w.Inside G b) (hend : matchEnd ≤ (G.chars b).length)
    (h : batchReplace (G.chars b).length s startPos endPos matchEnd text = .inl s') :
    s'.Inv G b ∧ remaining ((G.chars b).length - s'.start) s'.wasZeroMatch ≤
      remaining ((G.chars b).length - matchEnd) s.wasZeroMatch := by
  have hadd : ∀ t : BatchState, (t = s.add startPos endPos text ∨ t = s) →
      t.w.Inside G b ∧ t.wasZeroMatch = s.wasZeroMatch := by
    rintro t (rfl | rfl)
    · exact ⟨hinside, rfl⟩
    · exact ⟨hinside, rfl⟩
  obtain ⟨hinside', hzero⟩ := hadd _ (ite_eq_or_eq (startPos < endPos ∨ text ≠ []) _ _)
  rw [batchReplace] at h
  generalize (if startPos < endPos ∨ text ≠ [] then s.add startPos endPos text else s) = t at *
  split_ifs at h with hempty hn
  · obtain rfl := Sum.inl.inj h
    have hstep := remaining_step (show (G.chars b).length - matchEnd ≠ 0 by omega)
    rw [← hzero, hempty.1]
    exact ⟨⟨hinside', le_rfl, show matchEnd + 1 ≤ _ by omega⟩, hstep.le⟩
  · obtain rfl := Sum.inl.inj h
    exact ⟨.goOn hinside' hend, (congrArg _ hzero).le⟩

/-- What is left after a match. -/
theorem batchMatch_spec {limit : Option ℕ} {s s' : BatchState} {startPos endPos : ℕ}
    (hinside : s.w.Inside G b) (hstart : s.start ≤ s.w.offset + startPos)
    (hpos : startPos ≤ endPos) (hend : endPos ≤ s.w.text.length)
    (h : batchMatch G replacement b limit s startPos endPos = .inl s') :
    s'.Inv G b ∧ remaining ((G.chars b).length - s'.start) s'.wasZeroMatch <
      remaining ((G.chars b).length - s.start) s.wasZeroMatch := by
  have hlen := hinside.length_le
  have hstop := hinside.stop_le
  have hle := hinside.le
  have hseek : (s.w.seek (s.w.offset + startPos)).Inside G b :=
    ⟨hinside.le, hinside.stop_le, hinside.length_le, hinside.firstLineChars_le⟩
  have hat : (s.w.seek (s.w.offset + startPos)).offset +
      (s.w.seek (s.w.offset + startPos)).cursorOffset = s.w.offset + startPos := by
    simp only [RegexWindow.seek]
    omega
  rw [batchMatch] at h
  dsimp only at h
  rw [hat] at h
  by_cases hlimit : limit.any (· < s.w.offset + startPos)
  · simp [hlimit] at h
  rw [if_neg hlimit] at h
  obtain ⟨hrep, hzero⟩ | ⟨now, hrep, hnow⟩ := isRepeatedEmptyMatch_cases
    (endPos - startPos) (s.w.offset + startPos = s.start) s.wasZeroMatch
  · rw [hrep] at h
    dsimp only at h
    rw [if_pos rfl] at h
    split_ifs at h with hn
    obtain rfl := Sum.inl.inj h
    have hstep := remaining_step (show (G.chars b).length - s.start ≠ 0 by omega)
    rw [hzero]
    exact ⟨.goOn hseek (by omega), hstep⟩
  · rw [hrep] at h
    dsimp only at h
    rw [if_neg Bool.false_ne_true] at h
    cases hexpand : replacement.expandMatch s.w.text s.w.cursorOffset with
    | none => simp [RegexWindow.seek, hexpand] at h
    | some text =>
      simp only [RegexWindow.seek, hexpand] at h
      obtain ⟨hinv, hless⟩ := batchReplace_spec (by exact hseek) (by omega) h
      refine ⟨hinv, hless.trans_lt (remaining_lt ?_)⟩
      simp only [decide_eq_true_eq] at hnow
      rcases hnow with ⟨rfl, hne⟩ | ⟨rfl, hempty, hfirst⟩
      · exact .inl ⟨rfl, by omega⟩
      · refine .inr ⟨rfl, by omega, fun heq => hfirst ?_⟩
        omega

/-- A round of the batch goes on in a later line, or with less left. -/
theorem batchRound_descends (regex : MooRegex) (replacement : Replacement) (b : B)
    (limit : Option ℕ) :
    Rounds.Descends (batchRound G regex replacement b limit) (BatchState.Inv G b)
      (BatchState.measure G b) := by
  intro s s' hs h
  obtain ⟨hinside, hline, hstart, hsearch, hzero⟩ := batchWindow_spec regex hs
  rw [batchRound] at h
  generalize batchWindow G regex b s = t at hinside hline hstart hsearch hzero h
  have hseek : (t.w.seek t.search).Inside G b :=
    ⟨hinside.le, hinside.stop_le, hinside.length_le, hinside.firstLineChars_le⟩
  dsimp only at h
  simp only [BatchState.measure, Prod.Lex.toLex_lt_toLex]
  cases hmatch : regex.matchFull (t.w.seek t.search).text (t.w.seek t.search).cursorOffset with
  | some places =>
    obtain ⟨startPos, endPos⟩ := places
    rw [hmatch] at h
    obtain ⟨hle, hpos, hend⟩ := regex.matchFull_le _ _ _ _ hmatch
    simp only [RegexWindow.seek] at hle
    have hsle := hs.start_le
    obtain ⟨hinv, hless⟩ := batchMatch_spec (s := { t with w := t.w.seek t.search }) hseek
      (show t.start ≤ t.w.offset + startPos by omega) hpos hend h
    refine ⟨hinv, .inl ?_⟩
    rwa [hstart, hzero] at hless
  | none =>
    rw [hmatch] at h
    cases hline' : G.forwardLine b t.w.stop with
    | none => simp [RegexWindow.seek, hline'] at h
    | some it =>
      obtain ⟨hit, hself, hbehind⟩ := G.forwardLine_lt b _ _ hinside.stop_le hline'
      simp only [RegexWindow.seek, hline'] at h
      split_ifs at h
      obtain rfl := Sum.inl.inj h
      have hlt := hbehind _ hline
      have hsle := hs.start_le
      refine ⟨⟨regexWindowLoad_inside regex hit, ?_, ?_⟩, .inr ⟨?_, ?_⟩⟩
      all_goals simp only [regexWindowLoad, hself]
      · omega
      · exact hit
      · rw [hstart, hzero]
      · omega

/-! ## With a callback -/

/-- The lines that are searched are inside of the text, and the search starts on the first one. -/
structure SearchWindow.Inside (G : GtkText B) (b : B) (w : SearchWindow) : Prop where
  le : w.start ≤ w.stop
  stop_le : w.stop ≤ (G.chars b).length
  line : G.lineStart b (w.start + w.startOffset) ≤ w.stop
  startOffset_le : w.start + w.startOffset ≤ (G.chars b).length

theorem searchRegexForward_inside (regex : MooRegex) {start : ℕ} (h : start ≤ (G.chars b).length) :
    (searchRegexForward G regex b start).Inside G b ∧
      (searchRegexForward G regex b start).start +
        (searchRegexForward G regex b start).startOffset = start := by
  have hline := G.lineStart_le b start
  obtain ⟨hle, hstop⟩ := windowEnd_le regex h
  have hat : G.lineStart b start + (start - G.lineStart b start) = start := by omega
  simp only [searchRegexForward]
  refine ⟨⟨hline.trans hle, hstop, ?_, ?_⟩, hat⟩
  · rw [hat]
    exact hline.trans hle
  · rw [hat]
    exact h

/-- A match is behind the start of the search and inside of the text. -/
structure RegexMatch.Inside (G : GtkText B) (b : B) (start : ℕ) (m : RegexMatch) : Prop where
  start_le : start ≤ m.start
  stop_eq : m.stop = m.start + m.matchLen
  stop_le : m.stop ≤ (G.chars b).length

/-- A round of the search finds a match, ends, or goes on in a later line. -/
theorem searchRegexRound_spec (regex : MooRegex) (searchEnd : Option ℕ) {w : SearchWindow}
    (h : w.Inside G b) :
    match searchRegexRound G regex b searchEnd w with
    | .inl w' => w'.Inside G b ∧ w.start + w.startOffset < w'.start + w'.startOffset
    | .inr found => ∀ m, found = some m → m.Inside G b (w.start + w.startOffset) := by
  have hle := h.le
  have hstop := h.stop_le
  have hlen := length_slice (G := G) (b := b) w.start w.stop
  unfold searchRegexRound
  dsimp only
  cases hmatch : regex.matchFull (G.slice b w.start w.stop) w.startOffset with
  | some places =>
    obtain ⟨startPos, endPos⟩ := places
    obtain ⟨hpos, hends, hend⟩ := regex.matchFull_le _ _ _ _ hmatch
    dsimp only
    by_cases hlimit : searchEnd.any (· < w.start + startPos)
    · simp [hlimit]
    · rw [if_neg hlimit]
      rintro m hm
      obtain rfl := Option.some.inj hm
      exact ⟨show _ ≤ w.start + startPos by omega, rfl,
        show w.start + startPos + (endPos - startPos) ≤ _ by omega⟩
  | none =>
    dsimp only
    cases hline : G.forwardLine b w.stop with
    | none => simp
    | some start =>
      obtain ⟨hit, hself, hbehind⟩ := G.forwardLine_lt b _ _ hstop hline
      obtain ⟨hle', hstop'⟩ := windowEnd_le regex hit
      dsimp only
      by_cases hlimit : searchEnd.any (· < start)
      · simp [hlimit]
      · rw [if_neg hlimit]
        exact ⟨⟨hle', hstop', (G.lineStart_le b _).trans hle', hit⟩, hbehind _ h.line⟩

/-- What holds at the start of a search. -/
structure ReplaceState.Inv (G : GtkText B) (s : ReplaceState B) : Prop where
  inside : s.search.Inside G s.buffer
  start_le : s.start ≤ s.search.start + s.search.startOffset

/-- The length of the text behind the start of a round. -/
def ReplaceState.left (G : GtkText B) (s : ReplaceState B) : ℕ :=
  (G.chars s.buffer).length - s.start

def ReplaceState.measure (G : GtkText B) (s : ReplaceState B) : ℕ ×ₗ ℕ :=
  toLex (remaining (s.left G) s.wasZeroMatch,
    (G.chars s.buffer).length - (s.search.start + s.search.startOffset))

theorem ReplaceState.inv_goOn {s : ReplaceState B} {start : ℕ}
    (h : start ≤ (G.chars s.buffer).length) : (s.goOn G regex start).Inv G := by
  obtain ⟨hinside, hat⟩ := searchRegexForward_inside regex h
  exact ⟨hinside, hat.ge⟩

/-- A replacement keeps the text behind the match. -/
theorem RegexMatch.Inside.length_replaceMatch {s : ReplaceState B} {m : RegexMatch} {start : ℕ}
    (h : m.Inside G s.buffer start) (text : List Char) :
    (G.chars (s.replaceMatch G m text).buffer).length =
      m.start + text.length + ((G.chars s.buffer).length - m.stop) := by
  have hstop := h.stop_le
  have heq := h.stop_eq
  have htake : ((G.chars s.buffer).take m.start).length = m.start :=
    List.length_take_of_le (by omega)
  rw [ReplaceState.replaceMatch, G.chars_insert, G.chars_delete _ _ _ (by omega),
    List.take_left' htake, List.drop_left' htake]
  simp only [List.length_append, List.length_drop, htake]
  omega

/-- The rest of a round after an answer. -/
theorem interactiveReplace_spec {s s' : ReplaceState B} {m : RegexMatch} {start : ℕ}
    {text : List Char} (hm : m.Inside G s.buffer start)
    (h : interactiveReplace G regex s m text = .inl s') :
    s'.Inv G ∧ remaining (s'.left G) s'.wasZeroMatch ≤
      remaining ((G.chars s.buffer).length - m.stop) s.wasZeroMatch := by
  have hstop := hm.stop_le
  have hlen := hm.length_replaceMatch text
  obtain ⟨t, matchEnd, hzero, hend, hleft, h⟩ : ∃ (t : ReplaceState B) (matchEnd : ℕ),
      t.wasZeroMatch = s.wasZeroMatch ∧ matchEnd ≤ (G.chars t.buffer).length ∧
      (G.chars t.buffer).length - matchEnd = (G.chars s.buffer).length - m.stop ∧
      (if t.wasZeroMatch ∧ text = [] then
        if (G.chars t.buffer).length ≤ matchEnd then .inr t.result
        else .inl ({ t with wasZeroMatch := false }.goOn G regex (matchEnd + 1))
      else .inl (t.goOn G regex matchEnd)) = Sum.inl s' := by
    rw [interactiveReplace] at h
    by_cases hreplaced : s.response ≠ .skip ∧ (m.matchLen ≠ 0 ∨ text ≠ [])
    · simp only [if_pos hreplaced] at h
      exact ⟨s.replaceMatch G m text, m.start + text.length, rfl, by omega, by omega, h⟩
    · simp only [if_neg hreplaced] at h
      exact ⟨s, m.stop, rfl, hstop, rfl, h⟩
  rw [← hleft, ← hzero]
  split_ifs at h with hempty hn
  · obtain rfl := Sum.inl.inj h
    have hstep := remaining_step (show (G.chars t.buffer).length - matchEnd ≠ 0 by omega)
    rw [hempty.1]
    exact ⟨ReplaceState.inv_goOn (show matchEnd + 1 ≤ (G.chars t.buffer).length by omega),
      hstep.le⟩
  · obtain rfl := Sum.inl.inj h
    exact ⟨ReplaceState.inv_goOn hend, le_rfl⟩

theorem ReplaceState.ask_spec (func : ℕ → MooTextReplaceResponse) (s : ReplaceState B) :
    (s.ask func).buffer = s.buffer ∧ (s.ask func).wasZeroMatch = s.wasZeroMatch := by
  unfold ask
  split_ifs <;> exact ⟨rfl, rfl⟩

/-- What is left after a match. -/
theorem interactiveMatch_spec {func : ℕ → MooTextReplaceResponse} {s s' : ReplaceState B}
    {m : RegexMatch} (hm : m.Inside G s.buffer s.start)
    (h : interactiveMatch G regex replacement func s m = .inl s') :
    s'.Inv G ∧ remaining (s'.left G) s'.wasZeroMatch < remaining (s.left G) s.wasZeroMatch := by
  have hstart := hm.start_le
  have hstop := hm.stop_le
  have heq := hm.stop_eq
  rw [interactiveMatch] at h
  obtain ⟨hrep, hzero⟩ | ⟨now, hrep, hnow⟩ :=
    isRepeatedEmptyMatch_cases m.matchLen (m.start = s.start) s.wasZeroMatch
  · rw [hrep] at h
    dsimp only at h
    rw [if_pos rfl] at h
    split_ifs at h with hn
    obtain rfl := Sum.inl.inj h
    have hstep := remaining_step (show (G.chars s.buffer).length - s.start ≠ 0 by omega)
    rw [hzero]
    exact ⟨ReplaceState.inv_goOn (show s.start + 1 ≤ (G.chars s.buffer).length by omega), hstep⟩
  · rw [hrep] at h
    dsimp only at h
    rw [if_neg Bool.false_ne_true] at h
    cases hexpand : replacement.expandMatch m.string m.pos with
    | none => simp [hexpand] at h
    | some text =>
      rw [hexpand] at h
      dsimp only at h
      split_ifs at h
      obtain ⟨hbuffer, hzero⟩ := ReplaceState.ask_spec func { s with wasZeroMatch := now }
      obtain ⟨hinv, hless⟩ := interactiveReplace_spec (show m.Inside G _ s.start by rwa [hbuffer]) h
      refine ⟨hinv, hless.trans_lt ?_⟩
      rw [hbuffer, hzero]
      refine remaining_lt ?_
      simp only [decide_eq_true_eq, ReplaceState.left] at hnow ⊢
      rcases hnow with ⟨rfl, hne⟩ | ⟨rfl, hempty, hfirst⟩
      · exact .inl ⟨rfl, by omega⟩
      · exact .inr ⟨rfl, by omega, fun heq => hfirst (by omega)⟩

/-- A round with a callback goes on in a later line, or with less left. -/
theorem interactiveRound_descends (regex : MooRegex) (replacement : Replacement)
    (func : ℕ → MooTextReplaceResponse) :
    Rounds.Descends (interactiveRound G regex replacement func) (ReplaceState.Inv G)
      (ReplaceState.measure G) := by
  intro s s' hs h
  have hsearch := searchRegexRound_spec regex s.endMark hs.inside
  have hstart := hs.start_le
  simp only [ReplaceState.measure, Prod.Lex.toLex_lt_toLex]
  rw [interactiveRound] at h
  cases hround : searchRegexRound G regex s.buffer s.endMark s.search with
  | inl search =>
    rw [hround] at h hsearch
    obtain rfl := Sum.inl.inj h
    have hle := hsearch.1.startOffset_le
    refine ⟨⟨hsearch.1, show s.start ≤ search.start + search.startOffset by omega⟩,
      .inr ⟨rfl, ?_⟩⟩
    simp only
    omega
  | inr found =>
    rw [hround] at h hsearch
    cases found with
    | none => simp at h
    | some m =>
      have hm := hsearch m rfl
      obtain ⟨hinv, hless⟩ := interactiveMatch_spec
        ⟨hstart.trans hm.start_le, hm.stop_eq, hm.stop_le⟩ h
      exact ⟨hinv, .inl hless⟩

/-- Both loops end, from every start in every text, with every limit, every regular expression,
every replacement and all answers; and no state of them comes again. -/
theorem replaceRegexAll_ends (G : GtkText B) (regex : MooRegex) (replacement : Replacement)
    (func : ℕ → MooTextReplaceResponse) (b : B) (start : Fin ((G.chars b).length + 1))
    (limit : Option ℕ) :
    let batch n :=
      Rounds.run (batchRound G regex replacement b limit) n (batchStart G regex b start)
    let interactive n := Rounds.run (interactiveRound G regex replacement func) n
      (replaceStart G regex b start limit)
    ((∃ n result, batch n = .inr result) ∧
      ∀ m n s, batch m = .inl s → batch n = .inl s → m = n) ∧
    (∃ n result, interactive n = .inr result) ∧
      ∀ m n s, interactive m = .inl s → interactive n = .inl s → m = n := by
  intro batch interactive
  have hstart : start.val ≤ (G.chars b).length := Nat.le_of_lt_succ start.isLt
  have hbatch := batchRound_descends (G := G) regex replacement b limit
  have hbatch₀ : (batchStart G regex b start).Inv G b :=
    ⟨regexWindowLoad_inside regex hstart, le_rfl, hstart⟩
  have hinteractive := interactiveRound_descends (G := G) regex replacement func
  have hinteractive₀ : (replaceStart G regex b start limit).Inv G := by
    obtain ⟨hinside, hat⟩ := searchRegexForward_inside regex hstart
    exact ⟨hinside, hat.ge⟩
  exact ⟨⟨hbatch.exists_result hbatch₀, fun m n s => hbatch.run_injective hbatch₀⟩,
    hinteractive.exists_result hinteractive₀,
    fun m n s => hinteractive.run_injective hinteractive₀⟩

end Medit
