import Mathlib.Algebra.Group.Nat.Defs
import Mathlib.Algebra.GroupWithZero.Nat
import Mathlib.Algebra.Order.BigOperators.Group.List
import Mathlib.Algebra.Order.Group.Nat
import Mathlib.Algebra.Ring.Int.Defs
import Medit.Search.Batch

/-!
# What a batch of replacements does

The runs that `batch_apply` makes one change for each, against the replacement of all matches at once.

## Main definitions

* `IsBatch` — matches in order with the text between neighbours as their gaps.
* `heldBack` — what a cursor is too far in front, right at matches that are empty.

## Main results

* `foldr_batchGroup` — runs replace what their matches replace.
* `cursorOffset_eq` — where a cursor goes.
* `batch_apply_iff` — when a cursor goes where it would with every match on its own.
-/

namespace Medit

open TextEdits

/-- What a match replaces, on its own. -/
def BatchMatch.edit (m : BatchMatch) : Edit Char := ⟨m.start, m.stop, m.text⟩

/-- Matches in order, with the text of the buffer between neighbours as their gaps. -/
structure IsBatch (t : List Char) (ms : List BatchMatch) : Prop where
  inside : ∀ m ∈ ms, m.start ≤ m.stop ∧ m.stop ≤ t.length
  ordered : ms.Pairwise fun m k => m.stop ≤ k.start
  gaps : ms.IsChain fun m k => ∀ gap ∈ k.gap, gap = (t.take k.start).drop m.stop

/-- Runs as `batch_apply` cuts them: all matches of a run but the first one have a gap. -/
def Joined (runs : List (BatchMatch × List BatchMatch)) : Prop :=
  ∀ run ∈ runs, ∀ k ∈ run.2, k.gap.isSome

/-- The matches of runs. -/
def flatten (runs : List (BatchMatch × List BatchMatch)) : List BatchMatch :=
  runs.flatMap fun run => run.1 :: run.2

variable {t t' : List Char} {ms : List BatchMatch} {m : BatchMatch} {p : ℕ}
  {run : BatchMatch × List BatchMatch} {runs : List (BatchMatch × List BatchMatch)}

/-! ## Runs -/

theorem flatten_cons : flatten (run :: runs) = run.1 :: (run.2 ++ flatten runs) := by
  simp [flatten]

theorem flatten_batchRuns (ms : List BatchMatch) : flatten (batchRuns ms) = ms := by
  fun_induction batchRuns ms with
  | case1 => rfl
  | case2 m ms h ih =>
    rw [h] at ih
    simp [← ih, flatten]
  | case3 m ms m' ms' runs h hgap ih =>
    rw [h, flatten_cons] at ih
    simp [flatten_cons, ← ih]
  | case4 m ms m' ms' runs h hgap ih =>
    rw [h] at ih
    simp [flatten_cons, ← ih]

theorem joined_batchRuns (ms : List BatchMatch) : Joined (batchRuns ms) := by
  fun_induction batchRuns ms with
  | case1 => simp [Joined]
  | case2 m ms h ih => simp [Joined]
  | case3 m ms m' ms' runs h hgap ih =>
    rw [h] at ih
    simp only [Joined, List.mem_cons, forall_eq_or_imp] at ih ⊢
    exact ⟨⟨hgap, ih.1⟩, ih.2⟩
  | case4 m ms m' ms' runs h hgap ih =>
    rw [h] at ih
    simp only [Joined, List.mem_cons, forall_eq_or_imp] at ih ⊢
    exact ⟨by simp, ih⟩

/-! ## Text -/

theorem IsBatch.of_cons (h : IsBatch t (m :: ms)) : IsBatch t ms :=
  ⟨fun k hk => h.inside k (by simp [hk]), (List.pairwise_cons.1 h.ordered).2, h.gaps.tail⟩

theorem IsBatch.of_append_left {ks : List BatchMatch} (h : IsBatch t (ms ++ ks)) : IsBatch t ms :=
  ⟨fun k hk => h.inside k (by simp [hk]), (List.pairwise_append.1 h.ordered).1, h.gaps.left_of_append⟩

theorem IsBatch.of_append_right {ks : List BatchMatch} (h : IsBatch t (ms ++ ks)) : IsBatch t ks :=
  ⟨fun k hk => h.inside k (by simp [hk]), (List.pairwise_append.1 h.ordered).2.1,
    h.gaps.right_of_append⟩

/-- Matches of a text that has been changed behind them only. -/
theorem IsBatch.congr (h : IsBatch t ms) {n : ℕ} (hn : n ≤ t'.length) (hms : ∀ m ∈ ms, m.stop ≤ n)
    (ht : t'.take n = t.take n) : IsBatch t' ms := by
  refine ⟨fun m hm => ⟨(h.inside m hm).1, (hms m hm).trans hn⟩, h.ordered, ?_⟩
  refine h.gaps.imp_of_mem_imp fun m k _ hk hgap gap hmem => ?_
  have hle : k.start ≤ n := (h.inside k hk).1.trans (hms k hk)
  have htake : t'.take k.start = t.take k.start := by
    rw [← Nat.min_eq_left hle, ← List.take_take, ht, List.take_take]
  rw [htake]
  exact hgap gap hmem

theorem le_runStop (h : IsBatch t (m :: ms)) : ∀ k ∈ m :: ms, k.stop ≤ runStop m ms := by
  intro k hk
  obtain ⟨pre, hpre⟩ : ∃ pre, m :: ms = pre ++ [(m :: ms).getLast (by simp)] :=
    ⟨_, (List.dropLast_append_getLast _).symm⟩
  have hord := h.ordered
  have hin := h.inside _ (List.getLast_mem (by simp : m :: ms ≠ []))
  rw [hpre, List.pairwise_append] at hord
  rw [hpre, List.mem_append, List.mem_singleton] at hk
  rcases hk with hk | rfl
  · exact (hord.2.2 k hk _ (by simp)).trans hin.1
  · rfl

/-- One change for a run comes to one change for each of its matches. -/
theorem batchGroup_apply (h : IsBatch t (m :: ms)) (hgap : ∀ k ∈ ms, k.gap.isSome) :
    (batchGroup (m, ms)).apply t = ((m :: ms).map BatchMatch.edit).foldr Edit.apply t := by
  induction ms generalizing m with
  | nil => simp [batchGroup, groupText, runStop, BatchMatch.edit]
  | cons k ms ih =>
    obtain ⟨gap, hk⟩ := Option.isSome_iff_exists.1 (hgap k (by simp))
    have hgap' := (List.isChain_cons_cons.1 h.gaps).1 gap (by simp [hk])
    obtain ⟨hm, -⟩ := h.inside m (by simp)
    obtain ⟨hks, hkt⟩ := h.inside k (by simp)
    have hmk : m.stop ≤ k.start := (List.pairwise_cons.1 h.ordered).1 k (by simp)
    rw [List.map_cons, List.foldr_cons, ← ih h.of_cons fun x hx => hgap x (by simp [hx])]
    have hstop : runStop m (k :: ms) = runStop k ms := by simp [runStop]
    have htake : (t.take k.start).take m.start = t.take m.start := by
      rw [List.take_take, Nat.min_eq_left (by omega)]
    simp only [Edit.apply, batchGroup, BatchMatch.edit, hstop]
    rw [List.take_append_of_le_length (by simp; omega), htake,
      List.drop_append_of_le_length (by simp; omega), ← hgap']
    simp [groupText, hk]

theorem foldr_batchGroup (h : IsBatch t (flatten runs)) (hruns : Joined runs) :
    (runs.map batchGroup).foldr Edit.apply t =
      ((flatten runs).map BatchMatch.edit).foldr Edit.apply t := by
  induction runs with
  | nil => rfl
  | cons run runs ih =>
    obtain ⟨m, ms⟩ := run
    have hflat : flatten ((m, ms) :: runs) = (m :: ms) ++ flatten runs := by simp [flatten_cons]
    rw [hflat] at h
    have hrun := h.of_append_left
    have hlast : m :: ms ≠ [] := by simp
    have hstop : runStop m ms ≤ t.length := (hrun.inside _ (List.getLast_mem hlast)).2
    have hbehind : ∀ e ∈ (flatten runs).map BatchMatch.edit, runStop m ms ≤ e.start := by
      intro e he
      obtain ⟨k, hk, rfl⟩ := List.mem_map.1 he
      exact (List.pairwise_append.1 h.ordered).2.2 _ (List.getLast_mem hlast) k hk
    obtain ⟨htake, hlen⟩ := take_foldr_apply hbehind hstop
    have hrun' := hrun.congr hlen (le_runStop hrun) htake
    rw [hflat, List.map_append, List.foldr_append, List.map_cons, List.foldr_cons,
      ih h.of_append_right fun run hr => hruns run (by simp [hr]),
      batchGroup_apply hrun' (hruns _ List.mem_cons_self)]

/-! ## Cursors -/

/-- The edits of matches. -/
def edits (ms : List BatchMatch) : List (Edit Char) := ms.map BatchMatch.edit

/-- What a cursor is too far in front: the replacements of the empty matches right at it, where their
run goes on behind it. -/
def heldBack (runs : List (BatchMatch × List BatchMatch)) (p : ℕ) : ℕ :=
  ((runs.filter fun run => p < runStop run.1 run.2).map fun run =>
    emptyText (edits (run.1 :: run.2)) p).sum

theorem IsBatch.edits_inside (h : IsBatch t ms) : Inside t.length (edits ms) := by
  intro e he
  obtain ⟨m, hm, rfl⟩ := List.mem_map.1 he
  exact h.inside m hm

theorem IsBatch.edits_ordered (h : IsBatch t ms) :
    (edits ms).Pairwise fun x y => x.stop ≤ y.start := List.pairwise_map.2 h.ordered

theorem mem_edits {e : Edit Char} : e ∈ edits ms ↔ ∃ m ∈ ms, m.edit = e := List.mem_map

/-- The characters of the new text of a run. -/
theorem outChars_total (chars : ℤ) (m : BatchMatch) (ms : List BatchMatch) :
    (outChars chars m ms).2 =
      chars + ((runStop m ms : ℤ) - m.start) + ((edits (m :: ms)).map Edit.growth).sum := by
  induction ms generalizing chars m with
  | nil => simp [outChars, runStop, edits, BatchMatch.edit, Edit.growth]
  | cons k ms ih =>
    have hstop : runStop m (k :: ms) = runStop k ms := by simp [runStop]
    simp only [outChars, ih, hstop, edits, List.map_cons, List.sum_cons]
    simp only [BatchMatch.edit, Edit.growth]
    omega

/-- A cursor behind the start of a match is inside it, or the next match is looked at. -/
theorem batchCursorInGroup_cons (h : m.start < p) (chars : ℤ) (prev : Option BatchMatch)
    (out : List (BatchMatch × ℤ)) : batchCursorInGroup p prev ((m, chars) :: out) =
      if p < m.stop then chars else batchCursorInGroup p (some m) out := by
  have hprev : (prev.any fun k => k.stop ≤ p ∧ p ≤ m.start) = false := by
    cases prev <;> simp [Nat.not_le.2 h]
  rw [batchCursorInGroup, hprev]
  simp [h]

/-- A cursor between two matches. -/
theorem batchCursorInGroup_gap {k : BatchMatch} (h : k.stop ≤ p) (h' : p ≤ m.start) (chars : ℤ)
    (out : List (BatchMatch × ℤ)) :
    batchCursorInGroup p (some k) ((m, chars) :: out) = chars - (m.start - p) := by
  simp [batchCursorInGroup, h, h']

/-- Behind the matches that end in front of it, a position moves with them. -/
theorem moved_cons (h : m.stop ≤ p) (ks : List BatchMatch) :
    moved (edits (m :: ks)) p = m.edit.growth + moved (edits ks) p := by
  have hanchor : anchor (edits (m :: ks)) p = anchor (edits ks) p := by
    refine @anchor_append _ [m.edit] _ _ fun e he => .inr ?_
    obtain rfl := List.mem_singleton.1 he
    exact h
  have hshift : shift (edits (m :: ks)) p = m.edit.growth + shift (edits ks) p := by
    simp [shift, edits, BatchMatch.edit, h]
  rw [moved, moved, hanchor, hshift]
  omega

/-- In front of all matches, a position moves with what is inserted right at it. -/
theorem moved_of_le (hle : ∀ k ∈ ms, k.start ≤ k.stop) (h : ∀ k ∈ ms, p ≤ k.start) :
    moved (edits ms) p = p + emptyText (edits ms) p := by
  have hedits : ∀ e ∈ edits ms, e.start ≤ e.stop ∧ p ≤ e.start := by
    intro e he
    obtain ⟨k, hk, rfl⟩ := mem_edits.1 he
    exact ⟨hle k hk, h k hk⟩
  rw [moved, anchor_eq_self fun e he => .inl (hedits e he).2,
    shift_eq_emptyText (fun e he => (hedits e he).1) fun e he => (hedits e he).2]

theorem emptyText_cons (h : m.start ≠ p) (ks : List BatchMatch) :
    emptyText (edits (m :: ks)) p = emptyText (edits ks) p := by
  simp [emptyText, edits, BatchMatch.edit, h]

/-- A position inside the first match goes to the start of its replacement. -/
theorem moved_inside (h : IsBatch t (m :: ms)) (hstart : m.start < p) (hstop : p < m.stop) :
    moved (edits (m :: ms)) p = m.start ∧ emptyText (edits (m :: ms)) p = 0 := by
  have hbehind : ∀ e ∈ edits (m :: ms), e.start ≠ p ∧ p < e.stop := by
    intro e he
    obtain ⟨x, hx, rfl⟩ := mem_edits.1 he
    rcases List.mem_cons.1 hx with rfl | hx
    · exact ⟨hstart.ne, hstop⟩
    · have hx' : p < x.start := hstop.trans_le ((List.pairwise_cons.1 h.ordered).1 x hx)
      exact ⟨hx'.ne', hx'.trans_le (h.inside x (by simp [hx])).1⟩
  have hanchor : anchor (edits (m :: ms)) p = m.start :=
    anchor_of_inside (e := m.edit) hstart hstop
  refine ⟨?_, emptyText_eq_zero fun e he => .inl (hbehind e he).1⟩
  rw [moved, shift_eq_zero fun e he => (hbehind e he).2, hanchor, add_zero]

theorem outChars_cons (chars : ℤ) (m k : BatchMatch) (ms : List BatchMatch) :
    (outChars chars m (k :: ms)).1 =
      (m, chars) :: (outChars (chars + m.text.length + (k.start - m.stop)) k ms).1 := rfl

theorem exists_outChars (chars : ℤ) (m : BatchMatch) (ms : List BatchMatch) :
    ∃ out, (outChars chars m ms).1 = (m, chars) :: out := by
  cases ms <;> exact ⟨_, rfl⟩

/-- A cursor strictly inside a run. -/
theorem batchCursorInGroup_eq (h : IsBatch t (m :: ms)) (hstart : m.start < p)
    (hstop : p < runStop m ms) (chars : ℤ) (prev : Option BatchMatch) :
    batchCursorInGroup p prev (outChars chars m ms).1 =
      chars - m.start + moved (edits (m :: ms)) p - emptyText (edits (m :: ms)) p := by
  induction ms generalizing m chars prev with
  | nil =>
    obtain ⟨hmoved, hempty⟩ := moved_inside h hstart hstop
    have hout := batchCursorInGroup_cons hstart chars prev []
    rw [if_pos (show p < m.stop from hstop)] at hout
    rw [hmoved, hempty]
    exact hout.trans (by omega)
  | cons k ms ih =>
    rw [outChars_cons, batchCursorInGroup_cons hstart]
    split
    · next hm =>
      obtain ⟨hmoved, hempty⟩ := moved_inside h hstart hm
      rw [hmoved, hempty]
      omega
    · next hm =>
      have hm : m.stop ≤ p := Nat.not_lt.1 hm
      rw [moved_cons hm, emptyText_cons hstart.ne]
      by_cases hk : p ≤ k.start
      · have hle : ∀ x ∈ k :: ms, x.start ≤ x.stop := fun x hx => (h.of_cons.inside x hx).1
        have hge : ∀ x ∈ k :: ms, p ≤ x.start := by
          intro x hx
          rcases List.mem_cons.1 hx with rfl | hx
          · exact hk
          · exact hk.trans ((hle k (by simp)).trans ((List.pairwise_cons.1 h.of_cons.ordered).1 x hx))
        obtain ⟨out, hout⟩ := exists_outChars (chars + m.text.length + (k.start - m.stop)) k ms
        rw [moved_of_le hle hge, hout, batchCursorInGroup_gap hm hk]
        simp only [BatchMatch.edit, Edit.growth]
        omega
      · have hstop' : p < runStop k ms := by simpa [runStop] using hstop
        rw [ih h.of_cons (Nat.not_le.1 hk) hstop']
        simp only [BatchMatch.edit, Edit.growth]
        omega

/-- A cursor in front of all groups stays. -/
theorem foldl_moveCursor_behind (h : ∀ run ∈ runs, p ≤ run.1.start ∧ p < runStop run.1 run.2)
    (s : ℤ × ℤ) : (runs.foldl (moveCursor p) s).2 = s.2 := by
  induction runs generalizing s with
  | nil => rfl
  | cons run runs ih =>
    obtain ⟨hstart, hstop⟩ := h run (by simp)
    rw [List.foldl_cons, ih fun r hr => h r (by simp [hr])]
    simp [moveCursor, batchGroup, Nat.not_le.2 hstop, Nat.not_lt.2 hstart]

theorem edits_append (ms ks : List BatchMatch) : edits (ms ++ ks) = edits ms ++ edits ks :=
  List.map_append

/-- Matches that end in front of a position shift it. -/
theorem moved_append {ks : List BatchMatch} (h : ∀ k ∈ ms, k.stop ≤ p) :
    moved (edits (ms ++ ks)) p = ((edits ms).map Edit.growth).sum + moved (edits ks) p := by
  induction ms with
  | nil => simp [edits]
  | cons m ms ih =>
    rw [List.cons_append, moved_cons (h m (by simp)), ih fun k hk => h k (by simp [hk])]
    simp only [edits, List.map_cons, List.sum_cons]
    omega

/-- Matches behind a position do not matter to it. -/
theorem moved_append_behind {ks : List BatchMatch} (h : ∀ k ∈ ks, p < k.start ∧ k.start ≤ k.stop) :
    moved (edits (ms ++ ks)) p = moved (edits ms) p := by
  have hks : ∀ e ∈ edits ks, p < e.start ∧ e.start ≤ e.stop := by
    intro e he
    obtain ⟨k, hk, rfl⟩ := mem_edits.1 he
    exact h k hk
  have hanchor : anchor (edits ms ++ edits ks) p = anchor (edits ms) p := by
    have hnone : ((edits ks).find? fun e => e.start < p ∧ p < e.stop) = none := by
      simp only [List.find?_eq_none, decide_eq_true_eq, not_and]
      intro e he hlt
      have := hks e he
      omega
    rw [anchor, List.find?_append, hnone, Option.or_none, anchor]
  rw [edits_append, moved, hanchor, shift_append,
    shift_eq_zero fun e he => (hks e he).1.trans_le (hks e he).2, add_zero, moved]

/-- What a cursor that all runs so far are in front of comes to. -/
theorem foldl_moveCursor (h : IsBatch t (flatten runs)) (shift : ℤ) :
    (runs.foldl (moveCursor p) (shift, p + shift)).2 =
      shift + moved (edits (flatten runs)) p - heldBack runs p := by
  induction runs generalizing shift with
  | nil =>
    simp [flatten, edits, moved, anchor, TextEdits.shift, heldBack]
    omega
  | cons run runs ih =>
    obtain ⟨m, ms⟩ := run
    have hflat : flatten ((m, ms) :: runs) = (m :: ms) ++ flatten runs := by simp [flatten_cons]
    rw [hflat] at h ⊢
    have hrun := h.of_append_left
    have hrest := h.of_append_right
    rw [List.foldl_cons]
    by_cases hp : runStop m ms ≤ p
    · have hmove : moveCursor p (shift, p + shift) (m, ms) =
          (shift + ((edits (m :: ms)).map Edit.growth).sum,
            p + (shift + ((edits (m :: ms)).map Edit.growth).sum)) := by
        simp only [moveCursor, outChars_total, batchGroup, ge_iff_le, hp, if_true, Prod.mk.injEq]
        omega
      have hheld : heldBack ((m, ms) :: runs) p = heldBack runs p := by
        simp [heldBack, Nat.not_lt.2 hp]
      rw [hmove, ih hrest, hheld, moved_append fun k hk => (le_runStop hrun k hk).trans hp]
      omega
    · have hp : p < runStop m ms := Nat.not_le.1 hp
      have hbehind : ∀ k ∈ flatten runs, p < k.start ∧ k.start ≤ k.stop := fun k hk =>
        ⟨hp.trans_le ((List.pairwise_append.1 h.ordered).2.2 _ (List.getLast_mem (by simp)) k hk),
          (hrest.inside k hk).1⟩
      have hruns : ∀ run ∈ runs, p ≤ run.1.start ∧ p < runStop run.1 run.2 := by
        intro run hr
        have hmem : ∀ k ∈ run.1 :: run.2, k ∈ flatten runs := fun k hk =>
          List.mem_flatMap.2 ⟨run, hr, hk⟩
        have hlast := hbehind _ (hmem _ (List.getLast_mem (by simp : run.1 :: run.2 ≠ [])))
        exact ⟨(hbehind _ (hmem _ (by simp))).1.le, hlast.1.trans_le hlast.2⟩
      have hheld : heldBack ((m, ms) :: runs) p = emptyText (edits (m :: ms)) p := by
        have hzero : heldBack runs p = 0 := by
          refine List.sum_eq_zero fun n hn => ?_
          obtain ⟨run, hr, rfl⟩ := List.mem_map.1 hn
          refine emptyText_eq_zero fun e he => .inl ?_
          obtain ⟨k, hk, rfl⟩ := mem_edits.1 he
          exact (hbehind k (List.mem_flatMap.2 ⟨run, (List.mem_filter.1 hr).1, hk⟩)).1.ne'
        simp only [heldBack, List.filter_cons, hp, decide_true, if_true, List.map_cons,
          List.sum_cons] at hzero ⊢
        omega
      rw [foldl_moveCursor_behind hruns, hheld, moved_append_behind hbehind]
      have hnot : ¬ p ≥ runStop m ms := by omega
      by_cases hstart : p > m.start
      · simp only [moveCursor, batchGroup, hnot, hstart, if_false, if_true]
        rw [batchCursorInGroup_eq hrun hstart hp]
        omega
      · simp only [moveCursor, batchGroup, hnot, hstart, if_false]
        have hge : ∀ k ∈ m :: ms, p ≤ k.start := by
          intro k hk
          rcases List.mem_cons.1 hk with rfl | hk
          · omega
          · have := (List.pairwise_cons.1 hrun.ordered).1 k hk
            have := (hrun.inside m (by simp)).1
            omega
        rw [moved_of_le (fun k hk => (hrun.inside k hk).1) hge]
        omega

/-- Where a cursor goes. -/
theorem cursorOffset_eq (h : IsBatch t ms) :
    cursorOffset ms p = moved (edits ms) p - heldBack (batchRuns ms) p := by
  have hflat := flatten_batchRuns ms
  have hfold := foldl_moveCursor (p := p) (by rwa [hflat]) 0
  rw [hflat] at hfold
  simpa [cursorOffset] using hfold

/-! ## The new buffer -/

theorem heldBack_le (runs : List (BatchMatch × List BatchMatch)) (p : ℕ) :
    heldBack runs p ≤ emptyText (edits (flatten runs)) p := by
  induction runs with
  | nil => rfl
  | cons run runs ih =>
    have hflat : flatten (run :: runs) = (run.1 :: run.2) ++ flatten runs := by simp [flatten_cons]
    rw [hflat, edits_append, emptyText_append]
    simp only [heldBack, List.filter_cons] at ih ⊢
    split
    · simpa using ih
    · omega

theorem heldBack_eq_zero : heldBack runs p = 0 ↔
    ∀ run ∈ runs, p < runStop run.1 run.2 → ∀ m ∈ run.1 :: run.2, m.start = p → m.stop = p →
      m.text = [] := by
  have hempty (run : BatchMatch × List BatchMatch) : emptyText (edits (run.1 :: run.2)) p = 0 ↔
      ∀ m ∈ run.1 :: run.2, m.start = p → m.stop = p → m.text = [] := by
    rw [emptyText_eq_zero_iff, edits, List.forall_mem_map]
    rfl
  rw [heldBack, List.sum_eq_zero_iff, List.forall_mem_map]
  simp only [hempty, List.mem_filter, decide_eq_true_eq, and_imp]

/-- One change of the buffer. -/
theorem text_change {b : GtkBuffer} {g : Edit Char} (h : g.start ≤ g.stop) :
    ((b.deleteRange g.start g.stop).insertText g.start g.text).text = g.apply b.text := by
  simp only [GtkBuffer.insertText, GtkBuffer.deleteRange, Edit.apply]
  rcases Nat.le_total g.start b.text.length with hle | hle
  · rw [List.take_left' (List.length_take_of_le hle), List.drop_left' (List.length_take_of_le hle)]
  · simp [List.take_of_length_le hle, List.drop_of_length_le (hle.trans h), List.drop_of_length_le hle]

theorem text_foldr_change {gs : List (Edit Char)} (h : ∀ g ∈ gs, g.start ≤ g.stop) (b : GtkBuffer) :
    (gs.foldr (fun g b => (b.deleteRange g.start g.stop).insertText g.start g.text) b).text =
      gs.foldr Edit.apply b.text := by
  induction gs with
  | nil => rfl
  | cons g gs ih =>
    rw [List.foldr_cons, text_change (h g (by simp)), ih fun g hg => h g (by simp [hg]),
      List.foldr_cons]

/-- The new text, and where the marks go. -/
theorem batchApply_eq {b : GtkBuffer} (h : IsBatch b.text ms) (hinsert : b.insert ≤ b.text.length)
    (hbound : b.selectionBound ≤ b.text.length) :
    (batchApply b ms).text = replaceAll (edits ms) b.text ∧
      ((batchApply b ms).insert : ℤ) = cursorOffset ms b.insert ∧
      ((batchApply b ms).selectionBound : ℤ) = cursorOffset ms b.selectionBound := by
  have hflat := flatten_batchRuns ms
  have hgroups : ∀ g ∈ (batchRuns ms).map batchGroup, g.start ≤ g.stop := by
    intro g hg
    obtain ⟨run, hr, rfl⟩ := List.mem_map.1 hg
    obtain ⟨pre, post, hruns⟩ := List.append_of_mem hr
    have hrun : IsBatch b.text (run.1 :: run.2) := by
      rw [← hflat, hruns, flatten, List.flatMap_append, List.flatMap_cons] at h
      exact h.of_append_right.of_append_left
    exact (hrun.inside run.1 (by simp)).1.trans (le_runStop hrun run.1 (by simp))
  have htext : ((batchRuns ms).map batchGroup).foldr Edit.apply b.text =
      (edits ms).foldr Edit.apply b.text := by
    rw [foldr_batchGroup (by rwa [hflat]) (joined_batchRuns ms), hflat, edits]
  have hoffset {p : ℕ} (hp : p ≤ b.text.length) :
      0 ≤ cursorOffset ms p ∧ cursorOffset ms p ≤ ((edits ms).foldr Edit.apply b.text).length := by
    have hheld := heldBack_le (batchRuns ms) p
    have hlow := emptyText_le_moved h.edits_inside h.edits_ordered hp
    have hhigh := moved_le_length h.edits_inside h.edits_ordered hp
    rw [hflat] at hheld
    rw [cursorOffset_eq h]
    omega
  have hreplace := foldr_apply h.edits_inside h.edits_ordered
  unfold batchApply
  split
  · next hnil =>
    subst hnil
    exact ⟨by simpa [edits] using hreplace, rfl, rfl⟩
  · have hiter {p : ℕ} (hp : p ≤ b.text.length) {b' : GtkBuffer}
        (hb' : b'.text = (edits ms).foldr Edit.apply b.text) :
        (b'.iterAtOffset (cursorOffset ms p) : ℤ) = cursorOffset ms p := by
      obtain ⟨hlow, hhigh⟩ := hoffset hp
      rw [GtkBuffer.iterAtOffset, hb', if_pos ⟨hlow, hhigh⟩, Int.toNat_of_nonneg hlow]
    have hchange := text_foldr_change hgroups b
    exact ⟨(hchange.trans htext).trans hreplace, hiter hinsert (hchange.trans htext),
      hiter hbound (hchange.trans htext)⟩

/-- The text is that with all matches replaced at once. The cursor and the selection bound go where
they would with every match on its own, unless one is right at an empty match whose run goes on
behind it. -/
theorem batch_apply_iff (b : GtkBuffer) (ms : List BatchMatch) (h : IsBatch b.text ms)
    (hinsert : b.insert ≤ b.text.length) (hbound : b.selectionBound ≤ b.text.length) :
    ((batchApply b ms).text = replaceAll (edits ms) b.text ∧
      ((batchApply b ms).insert : ℤ) = moved (edits ms) b.insert ∧
      ((batchApply b ms).selectionBound : ℤ) = moved (edits ms) b.selectionBound) ↔
    ∀ p ∈ [b.insert, b.selectionBound], ∀ run ∈ batchRuns ms, p < runStop run.1 run.2 →
      ∀ m ∈ run.1 :: run.2, m.start = p → m.stop = p → m.text = [] := by
  obtain ⟨htext, hins, hsel⟩ := batchApply_eq h hinsert hbound
  have hiff (p : ℕ) : cursorOffset ms p = moved (edits ms) p ↔ heldBack (batchRuns ms) p = 0 := by
    rw [cursorOffset_eq h]
    omega
  rw [htext, hins, hsel, hiff, hiff, heldBack_eq_zero, heldBack_eq_zero, List.forall_mem_cons,
    List.forall_mem_singleton, and_iff_right rfl]

/-- A cursor inside a match, and a selection bound between two matches. -/
theorem batch_apply_two_words :
    let b : GtkBuffer := ⟨['f', 'o', 'o', ' ', 'f', 'o', 'o'], 5, 3⟩
    let ms : List BatchMatch := [⟨0, 3, ['x'], none⟩, ⟨4, 7, ['x'], some [' ']⟩]
    (batchApply b ms).text = replaceAll (edits ms) b.text ∧
      ((batchApply b ms).insert : ℤ) = moved (edits ms) b.insert ∧
      ((batchApply b ms).selectionBound : ℤ) = moved (edits ms) b.selectionBound := by
  intro b ms
  have h : IsBatch b.text ms :=
    ⟨by decide, by decide, List.isChain_cons_cons.2 ⟨by decide, List.isChain_singleton _⟩⟩
  exact (batch_apply_iff b ms h (by decide) (by decide)).2 (by decide)

/-- A cursor between two letters, with a dash put in front of each: it goes in front of the dash that
it is at, and with the two matches on their own it would go behind it. -/
theorem batch_apply_empty_matches :
    let b : GtkBuffer := ⟨['a', 'b'], 0, 0⟩
    let ms : List BatchMatch := [⟨0, 0, ['-'], none⟩, ⟨1, 1, ['-'], some ['a']⟩]
    IsBatch b.text ms ∧ (batchApply b ms).text = ['-', 'a', '-', 'b'] ∧
      (batchApply b ms).insert = 0 ∧ moved (edits ms) b.insert = 1 ∧
      (batchApply b (ms.map fun m => { m with gap := none })).insert = 1 := by
  intro b ms
  have h : IsBatch b.text ms :=
    ⟨by decide, by decide, List.isChain_cons_cons.2 ⟨by decide, List.isChain_singleton _⟩⟩
  exact ⟨h, by decide⟩

end Medit
