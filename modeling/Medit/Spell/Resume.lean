import Mathlib
import Medit.Spell.Model

/-!
# One pass and many calls

A call of `moo_spell_next_word` behind a word takes the rest of the chunk for a chunk. One pass
finds the runs of letters of each chunk and looks at the complete chunk in every test.

## Main definitions

* `chunks`, `runs` — the chunks of a text, and the runs of letters in a chunk.
* `allWords` — the words that one pass finds.
* `calls` — the words that calls from a position on give.

## Main results

* `spell_words` — the calls give the words of the pass, in order, and end.
-/

namespace Medit.Spell

/-- The runs of letters between `p` and the end of the chunk. -/
def runs (u : Unichar) (text : List Char) (ce p : ℕ) : List (ℕ × ℕ) :=
  if hp : p < ce then
    if halpha : u.isAlpha (getChar text p) then
      (p, runEnd u text ce p) :: runs u text ce (runEnd u text ce p)
    else runs u text ce (p + 1)
  else []
termination_by ce - p
decreasing_by
  · have := lt_runEnd hp halpha
    omega
  · omega

/-- The words among these runs, in the chunk that starts at `cs`. -/
def wordsFrom (u : Unichar) (text : List Char) (cs ce p : ℕ) : List MooSpellWord :=
  (runs u text ce p).filterMap fun run => wordAt u text cs ce run.1 run.2

/-- The chunks between `p` and the end of the text. -/
def chunks (u : Unichar) (text : List Char) (p : ℕ) : List (ℕ × ℕ) :=
  if _ : p < text.length then
    if hspace : u.isSpace (getChar text p) then chunks u text (p + 1)
    else (p, chunkEnd u text p) :: chunks u text (chunkEnd u text p)
  else []
termination_by text.length - p
decreasing_by
  · omega
  · have := lt_chunkEnd ‹_› hspace
    omega

/-- The words of a complete chunk. -/
def chunkWords (u : Unichar) (text : List Char) (chunk : ℕ × ℕ) : List MooSpellWord :=
  if chunkIsSkipped text chunk.1 chunk.2 then [] else wordsFrom u text chunk.1 chunk.2 chunk.1

/-- The words that one pass over the chunks from `p` on finds. -/
def allFrom (u : Unichar) (text : List Char) (p : ℕ) : List MooSpellWord :=
  (chunks u text p).flatMap (chunkWords u text)

/-- The words that one pass over the text finds. -/
def allWords (u : Unichar) (text : List Char) : List MooSpellWord := allFrom u text 0

/-- The words that calls from the position `p` on give, until a call finds none. There is no
answer when `n` calls are too few. -/
def calls (u : Unichar) (text : List Char) : ℕ → ℕ → Option (List MooSpellWord)
  | 0, _ => none
  | n + 1, p =>
    match nextWord u text p with
    | (none, _) => some []
    | (some word, p) => (calls u text n p).map (word :: ·)

variable {u : Unichar} {text : List Char} {cs ce p : ℕ}

/-! ## Runs -/

theorem runEnd_le (hp : p ≤ ce) : runEnd u text ce p ≤ ce := by
  fun_induction runEnd u text ce p <;> omega

/-- A run ends at the end of the chunk or in front of a character that it does not go on with. -/
theorem not_runGoesOn_runEnd (h : runEnd u text ce p < ce) :
    ¬ runGoesOn u text ce (runEnd u text ce p) := by
  fun_induction runEnd u text ce p with
  | case1 re hre ih => exact ih h
  | case2 re hre => exact fun hgoes => hre ⟨h, hgoes⟩

theorem mem_runs {run : ℕ × ℕ} (h : run ∈ runs u text ce p) :
    p ≤ run.1 ∧ run.1 < ce ∧ u.isAlpha (getChar text run.1) ∧ run.2 = runEnd u text ce run.1 := by
  fun_induction runs u text ce p with
  | case1 p hp halpha ih =>
    rcases List.mem_cons.1 h with rfl | hmem
    · exact ⟨Nat.le_refl p, hp, halpha, rfl⟩
    · have hlt := lt_runEnd hp halpha
      obtain ⟨hle, hrest⟩ := ih hmem
      exact ⟨by omega, hrest⟩
  | case2 p hp halpha ih =>
    obtain ⟨hle, hrest⟩ := ih h
    exact ⟨by omega, hrest⟩
  | case3 p hp => simp at h

/-- Where a word can end: the character there is not a letter, nor a dot in front of a letter. -/
def Resumable (u : Unichar) (text : List Char) (ce p : ℕ) : Prop :=
  p < ce → ¬ u.isAlpha (getChar text p) ∧ ¬ isDotted u text ce p

theorem wordsFrom_alpha (hp : p < ce) (halpha : u.isAlpha (getChar text p)) :
    wordsFrom u text cs ce p =
      (wordAt u text cs ce p (runEnd u text ce p)).toList ++
        wordsFrom u text cs ce (runEnd u text ce p) := by
  rw [wordsFrom, runs, dif_pos hp, dif_pos halpha, List.filterMap_cons]
  split <;> simp_all [wordsFrom]

theorem wordsFrom_not_alpha (hp : p < ce) (halpha : ¬ u.isAlpha (getChar text p)) :
    wordsFrom u text cs ce p = wordsFrom u text cs ce (p + 1) := by
  rw [wordsFrom, runs, dif_pos hp, dif_neg halpha, wordsFrom]

theorem wordsFrom_end (hp : ¬ p < ce) : wordsFrom u text cs ce p = [] := by
  rw [wordsFrom, runs, dif_neg hp, List.filterMap_nil]

theorem wordAt_eq_some {rs re : ℕ} {word : MooSpellWord}
    (h : wordAt u text cs ce rs re = some word) :
    word.start = rs ∧ word.stop = re ∧ ¬ touchesIdentifier u text cs ce rs re := by
  unfold wordAt at h
  split_ifs at h with htouches
  obtain ⟨script, -, rfl⟩ := Option.map_eq_some_iff.1 h
  exact ⟨rfl, rfl, htouches⟩

/-- A word ends where a call can go on. -/
theorem Resumable.of_word {rs : ℕ} {word : MooSpellWord}
    (h : wordAt u text cs ce rs (runEnd u text ce rs) = some word) :
    Resumable u text ce (runEnd u text ce rs) := by
  intro hlt
  have htouches := (wordAt_eq_some h).2.2
  have hgoes := not_runGoesOn_runEnd hlt
  refine ⟨?_, ?_⟩
  · intro halpha
    exact hgoes (by simp [runGoesOn, halpha])
  · intro hdotted
    exact htouches (by simp [touchesIdentifier, hlt, hdotted])

/-! ## The rest of a chunk -/

/-- Behind a word, the tests of a run see the same in the rest of the chunk as in the chunk. -/
theorem Resumable.touchesIdentifier_eq (h : Resumable u text ce p) (hcs : cs ≤ p) {rs re : ℕ}
    (hrs : p < rs) (hce : rs < ce) (halpha : u.isAlpha (getChar text rs)) :
    touchesIdentifier u text p ce rs re = touchesIdentifier u text cs ce rs re := by
  have hcsrs : cs < rs := by omega
  by_cases hfirst : p < rs - 1
  · have hcsfirst : cs < rs - 1 := by omega
    simp [touchesIdentifier, hrs, hcsrs, hfirst, hcsfirst]
  · -- the run stands right behind the first character of the rest, which cannot be a dot
    obtain rfl : rs = p + 1 := by omega
    have hdot : getChar text p ≠ '.' := by
      intro hdot
      exact (h (by omega)).2 (by simp [isDotted, hdot, hce, halpha])
    simp [touchesIdentifier, hcsrs, beq_eq_false_iff_ne.2 hdot]

theorem Resumable.wordsFrom_eq (h : Resumable u text ce p) (hcs : cs ≤ p) :
    wordsFrom u text p ce p = wordsFrom u text cs ce p := by
  apply List.filterMap_congr
  intro run hrun
  obtain ⟨hle, hlt, halpha, -⟩ := mem_runs hrun
  have hne : p ≠ run.1 := by
    rintro rfl
    exact (h hlt).1 halpha
  simp only [wordAt, h.touchesIdentifier_eq hcs (by omega) hlt halpha]

theorem isAlpha_of_toLower {c : Char} (h : c.toLower.isAlpha) : c.isAlpha := by
  unfold Char.toLower at h
  split_ifs at h with hupper
  · simpa [Char.isAlpha, Char.isUpper] using Or.inl hupper
  · exact h

theorem Resumable.not_skipped (h : Resumable u text ce p) (hcs : cs ≤ p)
    (hskipped : chunkIsSkipped text cs ce = false) : chunkIsSkipped text p ce = false := by
  simp only [chunkIsSkipped, Bool.or_eq_false_iff, List.any_eq_false] at hskipped ⊢
  refine ⟨?_, ?_⟩
  · -- the rest does not begin with a letter
    by_contra hwww
    simp only [Bool.not_eq_false, Bool.and_eq_true, decide_eq_true_eq, beq_iff_eq] at hwww
    obtain ⟨hlen, hwww⟩ := hwww
    have hhead : ((text.take ce).drop p).head?.map Char.toLower = some 'w' := by
      have hhead := congrArg List.head? hwww
      rwa [List.head?_map, List.head?_take, if_neg (by decide)] at hhead
    rw [List.head?_drop, List.getElem?_take_of_lt (by omega)] at hhead
    obtain ⟨c, hc, hlower⟩ := Option.map_eq_some_iff.1 hhead
    have hget : getChar text p = c := by simp [getChar, hc]
    refine (h (by omega)).1 (u.isAlpha_ascii _ ?_)
    rw [hget]
    exact isAlpha_of_toLower (by rw [hlower]; decide)
  · intro c hc
    apply hskipped.2 c
    have hsuffix : (text.take ce).drop p <:+ (text.take ce).drop cs := by
      rw [← Nat.add_sub_cancel' hcs, ← List.drop_drop]
      exact List.drop_suffix _ _
    exact hsuffix.subset hc

/-! ## One call -/

/-- The words that the loop over a chunk gives are those of the pass. -/
theorem nextInChunk_spec (u : Unichar) (text : List Char) (cs ce p : ℕ) :
    match nextInChunk u text cs ce p with
    | some word => p ≤ word.start ∧ word.start < word.stop ∧ word.stop ≤ ce ∧
        Resumable u text ce word.stop ∧
        wordsFrom u text cs ce p = word :: wordsFrom u text cs ce word.stop
    | none => wordsFrom u text cs ce p = [] := by
  fun_induction nextInChunk u text cs ce p with
  | case1 p hp halpha re word hword =>
    obtain ⟨hstart, hstop, -⟩ := wordAt_eq_some hword
    have hlt := lt_runEnd hp halpha
    have hle : re ≤ ce := runEnd_le hp.le
    refine ⟨by omega, by omega, by omega, hstop ▸ Resumable.of_word hword, ?_⟩
    rw [wordsFrom_alpha hp halpha, hword, hstop]
    rfl
  | case2 p hp halpha re hword ih =>
    have hlt := lt_runEnd hp halpha
    rw [wordsFrom_alpha hp halpha, hword, Option.toList_none, List.nil_append]
    split at ih
    · exact ⟨by omega, ih.2⟩
    · exact ih
  | case3 p hp halpha ih =>
    rw [wordsFrom_not_alpha hp halpha]
    split at ih
    · exact ⟨by omega, ih.2⟩
    · exact ih
  | case4 p hp => exact wordsFrom_end hp

theorem chunkEnd_le (hp : p ≤ text.length) : chunkEnd u text p ≤ text.length := by
  fun_induction chunkEnd u text p <;> omega

/-- The end of a chunk is the same from every place in it. -/
theorem chunkEnd_eq {q : ℕ} (hpq : p ≤ q) (hq : q ≤ chunkEnd u text p) :
    chunkEnd u text q = chunkEnd u text p := by
  fun_induction chunkEnd u text p with
  | case1 p hgoes ih =>
    rcases hpq.eq_or_lt with rfl | hlt
    · rw [chunkEnd, if_pos hgoes]
    · exact ih hlt hq
  | case2 p hstop =>
    obtain rfl : p = q := by omega
    rw [chunkEnd, if_neg hstop]

/-- The rest of a chunk is visited like a chunk, and the text behind it afterwards. -/
theorem allFrom_eq (u : Unichar) (text : List Char) (p : ℕ) :
    allFrom u text p =
      chunkWords u text (p, chunkEnd u text p) ++ allFrom u text (chunkEnd u text p) := by
  have hnone (hend : chunkEnd u text p = p) : chunkWords u text (p, p) = [] := by
    rw [chunkWords, wordsFrom_end (Nat.lt_irrefl p), ite_self]
  by_cases hp : p < text.length
  · by_cases hspace : u.isSpace (getChar text p)
    · have hend : chunkEnd u text p = p := by rw [chunkEnd, if_neg (by simp [hspace])]
      rw [hend, hnone hend, List.nil_append]
    · rw [allFrom, chunks, dif_pos hp, dif_neg hspace, List.flatMap_cons]
      rfl
  · have hend : chunkEnd u text p = p := by rw [chunkEnd, if_neg (by simp [hp])]
    rw [hend, hnone hend, List.nil_append]

/-- A call gives the first word of the pass, and the pass from the end of the word on has the
others. -/
theorem nextWord_spec (u : Unichar) (text : List Char) (p : ℕ) :
    match nextWord u text p with
    | (some word, q) => q = word.stop ∧ p ≤ word.start ∧ word.start < word.stop ∧
        word.stop ≤ text.length ∧ allFrom u text p = word :: allFrom u text word.stop
    | (none, _) => allFrom u text p = [] := by
  fun_induction nextWord u text p with
  | case1 p hp hspace ih =>
    have hsame : allFrom u text p = allFrom u text (p + 1) := by
      rw [allFrom, chunks, dif_pos hp, dif_pos hspace]
      rfl
    rw [hsame]
    split at ih
    · exact ⟨ih.1, by omega, ih.2.2⟩
    · exact ih
  | case2 p hp hspace ce hskipped ih =>
    have hlt : p < ce := lt_chunkEnd hp hspace
    have hsame : allFrom u text p = allFrom u text ce := by
      rw [allFrom_eq, chunkWords, if_pos hskipped, List.nil_append]
    rw [hsame]
    split at ih
    · exact ⟨ih.1, by omega, ih.2.2⟩
    · exact ih
  | case3 p hp hspace ce hskipped word hword =>
    have hspec := nextInChunk_spec u text p ce p
    rw [hword] at hspec
    obtain ⟨hstart, hlt, hstop, hresume, hwords⟩ := hspec
    have hce : ce ≤ text.length := chunkEnd_le hp.le
    refine ⟨rfl, hstart, hlt, by omega, ?_⟩
    -- the rest of the chunk is visited as a chunk of its own
    have hend : chunkEnd u text word.stop = ce := chunkEnd_eq (by omega) hstop
    have hrest : chunkWords u text (word.stop, ce) = wordsFrom u text p ce word.stop := by
      have hle : p ≤ word.stop := by omega
      have hnot := hresume.not_skipped hle (by simpa using hskipped)
      rw [chunkWords, if_neg (by simp [hnot]), hresume.wordsFrom_eq hle]
    rw [allFrom_eq u text p, chunkWords, if_neg hskipped, hwords, allFrom_eq u text word.stop,
      hend, hrest]
    rfl
  | case4 p hp hspace ce hskipped hword ih =>
    have hlt : p < ce := lt_chunkEnd hp hspace
    have hspec := nextInChunk_spec u text p ce p
    rw [hword] at hspec
    have hsame : allFrom u text p = allFrom u text ce := by
      rw [allFrom_eq, chunkWords, if_neg hskipped, hspec, List.nil_append]
    rw [hsame]
    split at ih
    · exact ⟨ih.1, by omega, ih.2.2⟩
    · exact ih
  | case5 p hp =>
    rw [allFrom, chunks, dif_neg hp]
    rfl

/-! ## All calls -/

/-- Every call takes a character at least, so that there is an end. -/
theorem calls_eq (u : Unichar) (text : List Char) {n p : ℕ} (hp : p ≤ text.length)
    (hn : text.length < p + n) : calls u text n p = some (allFrom u text p) := by
  induction n generalizing p with
  | zero => omega
  | succ n ih =>
    have hspec := nextWord_spec u text p
    rw [calls]
    split at hspec
    · next word q hnext =>
      obtain ⟨rfl, hle, hlt, hstop, hwords⟩ := hspec
      simp only [hnext, ih hstop (by omega : text.length < word.stop + n), hwords, Option.map_some]
    · next q hnext => rw [hnext, hspec]

/-- The words that calls give lie in the text behind the position, one behind the other. -/
theorem ordered_of_calls {n p : ℕ} {words : List MooSpellWord}
    (h : calls u text n p = some words) :
    words.Pairwise (fun word word' => word.stop ≤ word'.start) ∧
      ∀ word ∈ words, p ≤ word.start ∧ word.start < word.stop ∧ word.stop ≤ text.length := by
  induction n generalizing p words with
  | zero => cases h
  | succ n ih =>
    have hspec := nextWord_spec u text p
    rw [calls] at h
    split at hspec
    · next first q hnext =>
      obtain ⟨rfl, hle, hlt, hstop, -⟩ := hspec
      rw [hnext] at h
      obtain ⟨rest, hrest, rfl⟩ := Option.map_eq_some_iff.1 h
      obtain ⟨hpairwise, hbounds⟩ := ih hrest
      refine ⟨List.pairwise_cons.2 ⟨fun word hword => (hbounds word hword).1, hpairwise⟩, ?_⟩
      intro word hword
      rcases List.mem_cons.1 hword with rfl | hmem
      · exact ⟨hle, hlt, hstop⟩
      · obtain ⟨hstart, hrest⟩ := hbounds word hmem
        exact ⟨by omega, hrest⟩
    · next q hnext =>
      rw [hnext] at h
      cases h
      simp

/-- Calls of `moo_spell_next_word` from the start of a text on end, and give the words of one pass
over the complete chunks. These words follow each other without overlap. -/
theorem spell_words (u : Unichar) (text : List Char) :
    calls u text (text.length + 1) 0 = some (allWords u text) ∧
      (allWords u text).Pairwise (fun word word' => word.stop ≤ word'.start) ∧
      ∀ word ∈ allWords u text, word.start < word.stop ∧ word.stop ≤ text.length := by
  have hcalls : calls u text (text.length + 1) 0 = some (allWords u text) :=
    calls_eq u text (Nat.zero_le _) (by omega)
  obtain ⟨hpairwise, hbounds⟩ := ordered_of_calls hcalls
  exact ⟨hcalls, hpairwise, fun word hword => (hbounds word hword).2⟩

end Medit.Spell
