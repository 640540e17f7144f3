import Medit.LineBuffer.Lookup

/-!
# Operations on marks

What the functions of the line buffer do to the rows of marks. Each is a change of one row, or the
deletion of some lines with the marks of the last of them taken aside.
-/

namespace Medit

open Function (update)

namespace BTree

variable {t t' : BTree} {lev : Ptr → Option ℕ} {out : List MarkPtr}

/-! ## One row -/

theorem Restocks.lines {d : Ptr} {l : List MarkPtr} (h : Restocks t t' d l) : t'.lines = t.lines := by
  rw [h.eq]
  rfl

theorem Restocks.marks {d : Ptr} {l : List MarkPtr} (h : Restocks t t' d l) :
    t'.marks = update t.marks d l := by rw [h.eq]

theorem Restocks.mark {d : Ptr} {l : List MarkPtr} (h : Restocks t t' d l) : t'.mark = t.mark := by
  rw [h.eq]

theorem Restocks.stamp {d : Ptr} {l : List MarkPtr} (h : Restocks t t' d l) :
    t'.stamp = t.stamp := by rw [h.eq]

/-- Another row for a line, in the lists of rows. -/
theorem rows_update (hnd : t.lines.Nodup) {i : ℕ} {d : Ptr} (hd : t.lines[i]? = some d)
    (l : List MarkPtr) : t.lines.map (update t.marks d l) = t.rows.set i l := by
  obtain ⟨hi, hdi⟩ := List.getElem?_eq_some_iff.1 hd
  refine List.ext_getElem? fun j => ?_
  rw [List.getElem?_map, List.getElem?_set, length_rows, getElem?_rows]
  by_cases hij : i = j
  · subst hij
    simp [hi, hdi]
  · rw [if_neg hij]
    refine Option.map_congr fun y hy => Function.update_of_ne ?_ ..
    rintro rfl
    obtain ⟨hj, hyj⟩ := List.getElem?_eq_some_iff.1 hy
    exact hij (hnd.getElem_inj_iff.1 (hdi.trans hyj.symm))

theorem Restocks.rows {i : ℕ} {d : Ptr} {l : List MarkPtr} (h : Restocks t t' d l)
    (hnd : t.lines.Nodup) (hd : t.lines[i]? = some d) : t'.rows = t.rows.set i l := by
  rw [BTree.rows, h.lines, h.marks, rows_update hnd hd]

theorem getData_mem (hm : t.Marked out) {i : ℕ} (hi : i < t.rows.length) :
    ∃ x, t.lines[i]? = some x ∧ t.getLine i = some x := by
  have hi' := hi
  rw [length_rows] at hi'
  exact ⟨t.lines[i], List.getElem?_eq_getElem hi', by rw [hm.getLine_eq hi, List.getElem?_eq_getElem hi']⟩

theorem nMarks_le_root (hm : t.Marked out) {x : Ptr} (hx : x ∈ t.lines) :
    (t.marks x).length ≤ t.nMarks t.root := by
  obtain ⟨lev, hok⟩ := hm.ok
  rw [← hm.stocked x hx]
  exact hok.nMarks_le (hok.mem_lines_iff.1 hx)

theorem Marked.nMarks_lt (hm : t.Marked out) : t.nMarks t.root < 2 ^ 31 :=
  hm.ok.elim fun _ hok => hok.nMarks_lt

theorem toInt_size (hm : t.Marked out) : toInt t.size = t.rows.length := by
  have := hm.size_lt
  rw [toInt_eq (by omega), hm.size_eq]

/-! ## Marks on and off a line -/

/-- The marks of a line are put aside. -/
theorem takeMarks_spec (hm : t.Marked out) {i : ℕ} {x : Ptr} (hx : t.lines[i]? = some x) :
    ∃ t', t.takeMarks i = some (t', t.marks x) ∧ t'.Marked (t.marks x ++ out) ∧
      t'.rows = t.rows.set i [] ∧ t'.mark = t.mark ∧ t'.stamp = t.stamp := by
  obtain ⟨lev, hok⟩ := hm.ok
  have hmem := List.mem_of_getElem? hx
  have hi : i < t.rows.length := length_rows ▸ (List.getElem?_eq_some_iff.1 hx).1
  have hle := nMarks_le_root hm hmem
  have hlt := hm.nMarks_lt
  have hof := hm.stocked.marksOf hmem
  have hstock := hm.stocked x hmem
  obtain ⟨t', hexec, hr⟩ : ∃ t', (if t.marks x ≠ [] then
      (t.setMarks x []).updateNMarks x (-toInt (t.marks x).length) else some (t.setMarks x [])) =
        some t' ∧ Restocks t t' x [] := by
    by_cases hz : t.marks x = []
    · refine ⟨t.setMarks x [], by simp [hz], rfl, ⟨lev, hok.of_marks _⟩, ?_⟩
      intro y hy
      by_cases hyx : y = x
      · subst hyx
        simpa [setMarks, hz] using hstock
      · simpa [setMarks, hyx] using hm.stocked y hy
    · rw [if_pos hz, toInt_eq (by omega)]
      have hpos := List.length_pos_iff.2 hz
      exact restock_spec hok hm.stocked hmem _ _ (by omega) (by simp) (by omega)
  have hnil : t'.nMarks x = 0 := by
    have := hr.stocked x (hr.lines ▸ hmem)
    rw [this, hr.marks]
    simp
  refine ⟨t', ?_, ?_, hr.rows hm.nodup_lines hx, hr.mark, hr.stamp⟩
  · have hline : t.getLine i = some x := by rw [hm.getLine_eq hi, hx]
    simp only [takeMarks, hline, Option.bind_eq_bind, Option.bind_some, hof]
    by_cases hz : t.marks x = []
    · rw [if_neg (by simpa using hz)] at hexec
      obtain rfl := Option.some.inj hexec
      simp [hz, gAssert_true hnil]
    · rw [if_pos hz] at hexec
      simp [hz, hexec, gAssert_true hnil]
  · have hlines := hr.lines
    have hmarks (y : Ptr) : t'.marks y = if y = x then [] else t.marks y := by
      rw [hr.marks, Function.update_apply]
    have hmark := hr.mark
    have hstamp := hr.stamp
    have huniq := @hm.line_unique
    obtain ⟨-, -, hnodup, hon, hlive, hout, hdead, hst, hno⟩ := hm
    refine ⟨hr.ok, hr.stocked, ?_, ?_, ?_, ?_, ?_, ?_, ?_⟩ <;>
      simp only [hlines, hmarks, hmark, hstamp, List.mem_append] <;> grind

/-- `_moo_line_mark_set_line` for several marks of the buffer. -/
theorem setMarkLines_eq (ms : List MarkPtr) (line : Option Ptr) (lineNo : ℤ)
    (hms : ∀ m ∈ ms, (t.mark m).buffer = true) :
    ms.foldlM (fun t mark => t.setMarkLine mark line lineNo t.stamp) t =
      some { t with mark := fun m =>
        if m ∈ ms then (t.mark m).setLine line lineNo t.stamp else t.mark m } := by
  induction ms generalizing t with
  | nil => simp
  | cons m ms ih =>
    rw [List.foldlM_cons, setMarkLine, gAssert_true (.inr (hms m (by simp)))]
    refine (ih fun m' hm' => ?_).trans (congrArg some ?_)
    · by_cases hmm : m' = m
      · subst hmm
        simpa [LineMark.setLine] using hms m' (by simp)
      · simpa [hmm] using hms m' (by simp [hm'])
    · simp only [BTree.mk.injEq, true_and, and_true]
      funext m'
      by_cases hmm : m' = m
      · subst hmm
        simp [LineMark.setLine]
      · simp [hmm]

/-- Marks that were put aside are at the end of the row of `x`, and know its number. -/
theorem Marked.of_give {ms : List MarkPtr} (hm : t.Marked (ms ++ out)) {i : ℕ} {x : Ptr}
    (hx : t.lines[i]? = some x) (hnd : ms.Nodup) (hdis : ∀ m ∈ ms, m ∉ out)
    (hok : ∃ lev, t'.Ok lev) (hstocked : t'.Stocked) (hlines : t'.lines = t.lines)
    (hmarks : t'.marks = update t.marks x (t.marks x ++ ms)) (hstamp : t'.stamp = t.stamp)
    (hmark : ∀ m, t'.mark m = if m ∈ ms then (t.mark m).setLine (some x) i t.stamp else t.mark m) :
    t'.Marked out := by
  have hmarks' (y : Ptr) : t'.marks y = if y = x then t.marks x ++ ms else t.marks y := by
    rw [hmarks, Function.update_apply]
  obtain ⟨-, -, hnodup, hon, hlive, hout', hdead, hst, hno⟩ := hm
  simp only [List.mem_append] at hon hlive hout'
  refine ⟨hok, hstocked, ?_, ?_, ?_, ?_, ?_, ?_, ?_⟩ <;>
    simp only [hlines, hmarks', hmark, hstamp] <;> grind [LineMark.setLine, List.nodup_append]

/-- A line gets marks that were put aside. -/
theorem giveMarks_spec {ms : List MarkPtr} (hm : t.Marked (ms ++ out)) {i : ℕ} {x : Ptr}
    (hx : t.lines[i]? = some x) (hnd : ms.Nodup) (hdis : ∀ m ∈ ms, m ∉ out)
    (hlt : t.nMarks t.root + ms.length < 2 ^ 31) :
    ∃ t', t.giveMarks i ms = some t' ∧ t'.Marked out ∧ t'.rows = t.rows.set i (t.marks x ++ ms) ∧
      (t'.mark = fun m => if m ∈ ms then (t.mark m).setLine (some x) i t.stamp else t.mark m) ∧
      t'.stamp = t.stamp := by
  obtain ⟨lev, hok⟩ := hm.ok
  have hmem := List.mem_of_getElem? hx
  have hi : i < t.rows.length := length_rows ▸ (List.getElem?_eq_some_iff.1 hx).1
  have hline : t.getLine i = some x := by rw [hm.getLine_eq hi, hx]
  by_cases hz : ms = []
  · subst hz
    refine ⟨t, by simp [giveMarks, hline], by simpa using hm, ?_, by simp, rfl⟩
    have hrow : t.rows[i]? = some (t.marks x) := by rw [getElem?_rows, hx, Option.map_some]
    obtain ⟨hi', hget⟩ := List.getElem?_eq_some_iff.1 hrow
    rw [List.append_nil, ← hget, List.set_getElem_self]
  · have hof := hm.stocked.marksOf hmem
    have hout : ∀ m ∈ ms, (t.mark m).buffer = true := fun m hmm =>
      hm.out_live m (List.mem_append_left _ hmm)
    let t₁ : BTree := { t with mark := fun m =>
      if m ∈ ms then (t.mark m).setLine (some x) i t.stamp else t.mark m }
    have hok₁ : t₁.Ok lev := ⟨⟨⟨hok.shape, hok.isBottom, hok.fresh⟩, hok.counts, hok.marks,
      hok.count_lt, hok.nMarks_lt⟩, hok.filled⟩
    have hpos := List.length_pos_iff.2 hz
    obtain ⟨t', hexec, hr⟩ := restock_spec hok₁ hm.stocked hmem
      (t.marks x ++ ms) ms.length (by omega) (by simp [t₁]) (show ((t.nMarks t.root : ℕ) : ℤ) + ms.length < 2 ^ 31 by omega)
    have hlines : t'.lines = t.lines := hr.lines
    have hrows : t'.rows = t.rows.set i (t.marks x ++ ms) := hr.rows (t := t₁) hm.nodup_lines hx
    have hmark := hr.mark
    refine ⟨t', ?_, ?_, hrows, hmark, hr.stamp⟩
    · simp only [giveMarks, hline, Option.bind_eq_bind, Option.bind_some, hof, ne_eq, hz,
        not_false_eq_true, if_true]
      have hset := setMarkLines_eq (t := t.setMarks x (t.marks x ++ ms)) ms (some x) i hout
      rw [hset, Option.bind_some, toInt_eq (by omega)]
      exact hexec
    · exact hm.of_give hx hnd hdis hr.ok hr.stocked hlines hr.marks hr.stamp fun m => by rw [hmark]

/-! ## Deletion -/

/-- Lines deleted with all their marks. -/
theorem deleteLines_spec (hm : t.Marked []) {A M B : List (List MarkPtr)} (h : t.rows = A ++ (M ++ B))
    (hM : M ≠ []) (hB : B ≠ []) (hstamp : t.stamp + M.length < 2 ^ 32) :
    ∃ t', t.deleteLines A.length M.length (-1) [] [] = some (t', [], M.flatten.reverse) ∧
      t'.Marked M.flatten ∧ t'.rows = A ++ B ∧ ∀ m, (t'.mark m).buffer = (t.mark m).buffer := by
  have hM' := List.length_pos_iff.2 hM
  have hB' := List.length_pos_iff.2 hB
  have hlen : t.rows.length = A.length + (M.length + B.length) := by
    rw [h, List.length_append, List.length_append]
  obtain ⟨t', gone, hrun, hgone, hm', hrows, hmark, -⟩ :=
    deleteRange_marked hm A.length M.length hM' (by omega) (by omega) hstamp []
  rw [h, List.drop_left, List.take_left] at hgone
  rw [h, List.take_left, ← List.append_assoc A M, ← List.length_append, List.drop_left] at hrows
  subst hgone
  refine ⟨t', ?_, by simpa using hm', hrows, fun m => ?_⟩
  · rw [deleteLines, if_neg (by omega), hrun]
    simp
  · rw [hmark]
    by_cases hmem : m ∈ M.flatten <;> simp only [hmem, if_true, if_false, LineMark.setLine]

/-- Lines deleted, the marks of the last of them moved to the line before the first. -/
theorem deleteLines_move_spec (hm : t.Marked []) {A M B : List (List MarkPtr)}
    {row last : List MarkPtr} (h : t.rows = A ++ row :: (M ++ last :: B))
    (hstamp : t.stamp + (M.length + 1) < 2 ^ 32) :
    ∃ t', t.deleteLines (A.length + 1) (M.length + 1 : ℕ) A.length [] [] =
        some (t', last.reverse, M.flatten.reverse) ∧ t'.Marked M.flatten ∧
      t'.rows = A ++ (row ++ last) :: B ∧ ∀ m, (t'.mark m).buffer = (t.mark m).buffer := by
  have hlast : t.rows[A.length + (M.length + 1)]? = some last := by
    rw [h, List.getElem?_append_right (by omega), Nat.add_sub_cancel_left, List.getElem?_cons_succ,
      List.getElem?_append_right (by omega), Nat.sub_self, List.getElem?_cons_zero]
  obtain ⟨x, hx, rfl⟩ : ∃ x, t.lines[A.length + (M.length + 1)]? = some x ∧ t.marks x = last := by
    simpa [getElem?_rows] using hlast
  -- The marks of the last line are taken.
  obtain ⟨t₁, htake, hm₁, hrows₁, hmark₁, hst₁⟩ := takeMarks_spec hm hx
  rw [List.append_nil] at hm₁
  have hrows₁' : t₁.rows = (A ++ [row]) ++ ((M ++ [[]]) ++ B) := by
    rw [hrows₁, h, List.set_append_right _ _ (by omega), Nat.add_sub_cancel_left,
      List.set_cons_succ, List.set_append_right _ _ le_rfl, Nat.sub_self, List.set_cons_zero]
    simp
  have hlenA : (A ++ [row]).length = A.length + 1 := by simp
  have hlenM : (M ++ [[]]).length = M.length + 1 := by simp
  have hlen₁ : t₁.rows.length = A.length + 1 + (M.length + 1 + B.length) := by
    rw [hrows₁', ← hlenA, ← hlenM, ← List.length_append, ← List.length_append]
  -- The lines are deleted.
  obtain ⟨t₂, gone, hdel, hgone, hm₂, hrows₂, hmark₂, hst₂⟩ :=
    deleteRange_marked hm₁ (A.length + 1) (M.length + 1) (by omega) (by omega)
      (by omega) (by omega) []
  rw [hrows₁', List.drop_left' hlenA, List.take_left' hlenM] at hgone
  rw [hrows₁', List.take_left' hlenA, ← List.append_assoc (A ++ [row]),
    List.drop_left' (by rw [List.length_append, hlenA, hlenM])] at hrows₂
  obtain rfl : gone = M.flatten := by simpa using hgone
  have hrow₂ : t₂.rows[A.length]? = some row := by
    rw [hrows₂, List.append_assoc, List.getElem?_append_right le_rfl, Nat.sub_self]
    rfl
  obtain ⟨y, hy, rfl⟩ : ∃ y, t₂.lines[A.length]? = some y ∧ t₂.marks y = row := by
    simpa [getElem?_rows] using hrow₂
  -- The line before them gets the marks.
  have hroot := hm.nMarks_root
  have hroot₂ := hm₂.nMarks_root
  have hlt := hm.nMarks_lt
  rw [h] at hroot
  rw [hrows₂] at hroot₂
  simp only [List.flatten_append, List.flatten_cons, List.length_append, List.flatten_nil,
    List.length_nil] at hroot hroot₂
  have hdis : ∀ m ∈ t.marks x, m ∉ M.flatten := by
    have hnd := hm.nodup_rows
    rw [h, List.flatten_append, List.flatten_cons, List.flatten_append, List.flatten_cons] at hnd
    grind [List.nodup_append]
  obtain ⟨t₃, hgive, hm₃, hrows₃, hmark₃, hst₃⟩ := giveMarks_spec
    (show t₂.Marked (t.marks x ++ M.flatten) from
      hm₂.of_out fun m => by simp only [List.mem_append]; tauto) hy
    (hm.nodup x (List.mem_of_getElem? hx)) hdis (by omega)
  refine ⟨t₃, ?_, hm₃, ?_, fun m => ?_⟩
  · have hidx : ((A.length : ℤ) + 1 + (M.length + 1 : ℕ) - 1) =
        ((A.length + (M.length + 1) : ℕ) : ℤ) := by omega
    have hdel' : t₁.deleteRange ((A.length : ℤ) + 1) (M.length + 1 : ℕ) [] =
        some (t₂, M.flatten.reverse ++ []) := hdel
    rw [deleteLines, if_pos (by omega), hidx, htake, Option.bind_eq_bind, Option.bind_some]
    simp only [hdel', Option.bind_eq_bind, Option.bind_some, hgive]
    simp
  · rw [hrows₃, hrows₂, List.append_assoc, List.set_append_right _ _ le_rfl, Nat.sub_self]
    rfl
  · rw [hmark₃, hmark₂, hmark₁]
    by_cases h1 : m ∈ t.marks x <;> by_cases h2 : m ∈ M.flatten <;>
      simp only [h1, h2, if_true, if_false, LineMark.setLine]

/-! ## Single marks -/

/-- Other records for the marks that are on no line. -/
theorem Marked.of_mark (hm : t.Marked out) {f : MarkPtr → LineMark} {out' : List MarkPtr}
    (hon : ∀ x ∈ t.lines, ∀ m ∈ t.marks x, f m = t.mark m ∧ m ∉ out')
    (hlive : ∀ m, (f m).buffer = true → m ∈ out' ∨ (t.mark m).buffer = true ∧ m ∉ out)
    (hout : ∀ m ∈ out', (f m).buffer = true) (hdead : ∀ m, (f m).buffer = false → (f m).line = none)
    (hle : ∀ m, (f m).stamp ≤ t.stamp) : Marked { t with mark := f } out' := by
  obtain ⟨⟨lev, hok⟩, hstocked, hnodup, hon₀, hlive₀, -, -, -, hno⟩ := hm
  refine ⟨⟨lev, ⟨⟨⟨hok.shape, hok.isBottom, hok.fresh⟩, hok.counts, hok.marks, hok.count_lt,
    hok.nMarks_lt⟩, hok.filled⟩⟩, hstocked, hnodup, fun x hx m hmx => ?_, fun m hb => ?_, hout, hdead,
    hle, fun x hx m hmx => ?_⟩
  · obtain ⟨heq, hmem⟩ := hon x hx m hmx
    obtain ⟨hb, hline, -⟩ := hon₀ x hx m hmx
    rw [← heq] at hb hline
    exact ⟨hb, hline, hmem⟩
  · obtain h | ⟨hb', hmem⟩ := hlive m hb
    · exact .inl h
    · exact .inr ((hlive₀ m hb').resolve_left hmem)
  · have := hno x hx m hmx
    rwa [← (hon x hx m hmx).1] at this

/-- A mark outside the buffer is put into it. -/
theorem setMarkBuffer_true (hm : t.Marked []) {m : MarkPtr} (hdead : (t.mark m).buffer = false) :
    ∃ t', t.setMarkBuffer m true = some t' ∧ t'.Marked [m] ∧ t'.lines = t.lines ∧
      t'.rows = t.rows ∧ t'.nMarks t'.root = t.nMarks t.root ∧ (t'.mark m).line = none ∧
      ∀ m', (t'.mark m').buffer = if m' = m then true else (t.mark m').buffer := by
  have hnone := hm.dead m hdead
  have hle := hm.stamp_le
  have hdead' := hm.dead
  refine ⟨{ t with mark := update t.mark m { t.mark m with buffer := true } }, ?_, hm.of_mark
    ?_ ?_ ?_ ?_ ?_, rfl, rfl, rfl, by simpa using hnone, fun m' => ?_⟩
  · rw [setMarkBuffer, gAssert_true (.inr hdead)]
    rfl
  · intro x hx m' hm'
    have hb := (hm.on_line x hx m' hm').1
    have hne : m' ≠ m := by
      rintro rfl
      simp [hb] at hdead
    simp [hne]
  all_goals grind

/-- A mark on no line leaves the buffer. -/
theorem setMarkBuffer_false {m : MarkPtr} (hm : t.Marked (m :: out)) (hmem : m ∉ out) :
    ∃ t', t.setMarkBuffer m false = some t' ∧ t'.Marked out ∧ t'.lines = t.lines ∧
      t'.rows = t.rows ∧ (t'.mark m).line = none ∧
      ∀ m', (t'.mark m').buffer = if m' = m then false else (t.mark m').buffer := by
  have hle := hm.stamp_le
  have hdead := hm.dead
  have hout := hm.out_live
  have hset : ({ t.mark m with buffer := false } : LineMark).setLine none (-1) 0 =
    ⟨false, none, -1, 0⟩ := rfl
  refine ⟨{ t with mark := update t.mark m ⟨false, none, -1, 0⟩ }, ?_, hm.of_mark ?_ ?_ ?_ ?_ ?_,
    rfl, rfl, by simp, fun m' => ?_⟩
  · rw [setMarkBuffer, gAssert_true (.inl rfl)]
    simp [setMarkLine, LineMark.setLine]
  · intro x hx m' hm'
    have hmem' := (hm.on_line x hx m' hm').2.2
    simp only [List.mem_cons, not_or] at hmem'
    simp [hmem']
  all_goals grind [LineMark.setLine]

/-- `marks_moved_or_deleted` takes the deleted marks out of the buffer. -/
theorem setMarkBuffers_false (ms : List MarkPtr) (hnd : ms.Nodup) (hdis : ∀ m ∈ ms, m ∉ out)
    (hm : t.Marked (ms ++ out)) :
    ∃ t', ms.foldlM (fun t mark => t.setMarkBuffer mark false) t = some t' ∧ t'.Marked out ∧
      t'.rows = t.rows ∧ ∀ m, (t'.mark m).buffer = if m ∈ ms then false else (t.mark m).buffer := by
  induction ms generalizing t with
  | nil => exact ⟨t, rfl, hm, rfl, by simp⟩
  | cons m ms ih =>
    obtain ⟨hmem, hnd'⟩ := List.nodup_cons.1 hnd
    obtain ⟨t₁, hset, hm₁, -, hrows₁, -, hbuf₁⟩ := setMarkBuffer_false hm
      (by simpa [hmem] using hdis m (by simp))
    obtain ⟨t₂, hrun, hm₂, hrows₂, hbuf₂⟩ := ih hnd' (fun m' hm' => hdis m' (by simp [hm'])) hm₁
    refine ⟨t₂, by simpa [hset] using hrun, hm₂, hrows₂.trans hrows₁, fun m' => ?_⟩
    rw [hbuf₂, hbuf₁]
    by_cases h1 : m' = m <;> by_cases h2 : m' ∈ ms <;> simp [h1, h2]

/-- `_moo_line_buffer_add_mark` -/
theorem addMark_spec {m : MarkPtr} (hm : t.Marked [m]) {i : ℕ} {x : Ptr} (hx : t.lines[i]? = some x)
    (hnone : (t.mark m).line = none) (hlt : t.nMarks t.root + 1 < 2 ^ 31) :
    ∃ t', t.addMark m i = some t' ∧ t'.Marked [] ∧ t'.lines = t.lines ∧
      t'.rows = t.rows.set i (t.marks x ++ [m]) ∧ t'.stamp = t.stamp ∧
      ∀ m', (t'.mark m').buffer = (t.mark m').buffer := by
  obtain ⟨lev, hok⟩ := hm.ok
  have hmem := List.mem_of_getElem? hx
  have hi : i < t.rows.length := length_rows ▸ (List.getElem?_eq_some_iff.1 hx).1
  have hline : t.getLine i = some x := by rw [hm.getLine_eq hi, hx]
  have hof := hm.stocked.marksOf hmem
  obtain ⟨t₁, hexec, hr⟩ := restock_spec hok hm.stocked hmem (t.marks x ++ [m]) 1
    (by omega) (by simp) (by omega)
  have hbuf : (t₁.mark m).buffer = true := by rw [hr.mark]; exact hm.out_live m (by simp)
  have hrows := hr.rows hm.nodup_lines hx
  refine ⟨{ t₁ with mark := update t₁.mark m ((t₁.mark m).setLine (some x) i t₁.stamp) }, ?_, ?_,
    hr.lines, hrows, hr.stamp, fun m' => ?_⟩
  · rw [addMark, toInt_size hm, if_pos (by omega), gAssert_true hnone, hline]
    simp [lineAddMark, hof, hexec, setMarkLine, hbuf]
  · obtain ⟨lev', hok'⟩ := hr.ok
    refine Marked.of_give (show t.Marked ([m] ++ []) from hm) hx (by simp) (by simp) ⟨lev', ⟨⟨⟨hok'.shape, hok'.isBottom,
      hok'.fresh⟩, hok'.counts, hok'.marks, hok'.count_lt, hok'.nMarks_lt⟩, hok'.filled⟩⟩ hr.stocked
      hr.lines hr.marks hr.stamp fun m' => ?_
    show update t₁.mark m ((t₁.mark m).setLine (some x) i t₁.stamp) m' = _
    rw [Function.update_apply, hr.mark, hr.stamp]
    by_cases hmm : m' = m <;> simp [hmm]
  · by_cases hmm : m' = m
    · subst hmm
      simp [LineMark.setLine, hr.mark]
    · simp [hmm, hr.mark]

/-- A mark taken from the row of `x`. -/
theorem Marked.of_remove (hm : t.Marked []) {x : Ptr} (hx : x ∈ t.lines) {m : MarkPtr}
    {A B : List MarkPtr} (hrow : t.marks x = A ++ m :: B) (hok : ∃ lev, t'.Ok lev)
    (hstocked : t'.Stocked) (hlines : t'.lines = t.lines)
    (hmarks : t'.marks = update t.marks x (A ++ B)) (hstamp : t'.stamp = t.stamp)
    (hmark : ∀ m', t'.mark m' = if m' = m then (t.mark m).setLine none (-1) 0 else t.mark m') :
    t'.Marked [m] := by
  have hmarks' (y : Ptr) : t'.marks y = if y = x then A ++ B else t.marks y := by
    rw [hmarks, Function.update_apply]
  have hnd := hm.nodup x hx
  rw [hrow, List.nodup_middle, List.nodup_cons, List.mem_append, not_or] at hnd
  have hmem (m' : MarkPtr) : m' ∈ t.marks x ↔ m' = m ∨ m' ∈ A ++ B := by
    rw [hrow]
    simp only [List.mem_append, List.mem_cons]
    tauto
  have huniq := @hm.line_unique
  obtain ⟨hnm, hnd'⟩ := hnd
  obtain ⟨-, -, hnodup, hon, hlive, -, hdead, hst, hno⟩ := hm
  refine ⟨hok, hstocked, ?_, ?_, ?_, ?_, ?_, ?_, ?_⟩ <;>
    simp only [hlines, hmarks', hmark, hstamp, List.mem_singleton]
  · grind
  · intro y hy m' hm'
    have hne : m' ≠ m := by grind
    grind
  · intro m' hb
    by_cases hmm : m' = m
    · exact .inl hmm
    · rw [if_neg hmm] at hb
      obtain ⟨y, hy, hmy⟩ := (hlive m' hb).resolve_left (by simp)
      exact .inr ⟨y, hy, by grind⟩
  · rintro m' rfl
    rw [if_pos rfl]
    exact (hon x hx m' ((hmem m').2 (.inl rfl))).1
  · grind [LineMark.setLine]
  · grind [LineMark.setLine]
  · intro y hy m' hm'
    have hne : m' ≠ m := by grind
    grind

/-- `_moo_line_buffer_remove_mark` -/
theorem removeMark_spec (hm : t.Marked []) {i : ℕ} {x : Ptr} (hx : t.lines[i]? = some x)
    {m : MarkPtr} (hmx : m ∈ t.marks x) :
    ∃ t', t.removeMark m = some t' ∧ t'.Marked [m] ∧ t'.lines = t.lines ∧
      t'.rows = t.rows.set i ((t.marks x).erase m) ∧ t'.stamp = t.stamp ∧
      (t'.mark m).line = none ∧ ∀ m', (t'.mark m').buffer = (t.mark m').buffer := by
  have hmem := List.mem_of_getElem? hx
  have hline := (hm.on_line x hmem m hmx).2.1
  obtain ⟨t₁, hget, href⟩ := getMarkLine_spec hm hx hmx
  have hm₁ := href.marked hm
  have hx₁ : t₁.lines[i]? = some x := by rw [href.lines, hx]
  have hi₁ : i < t₁.rows.length := length_rows ▸ (List.getElem?_eq_some_iff.1 hx₁).1
  have hline₁ : t₁.getLine i = some x := by rw [hm₁.getLine_eq hi₁, hx₁]
  obtain ⟨lev, hok₁⟩ := hm₁.ok
  obtain ⟨A, B, hAB⟩ := List.append_of_mem hmx
  have hnd := hm.nodup x hmem
  rw [hAB, List.nodup_middle, List.nodup_cons, List.mem_append, not_or] at hnd
  have hmarks₁ : t₁.marks x = A ++ m :: B := by rw [href.marks, hAB]
  let t₂ : BTree := { t₁ with mark := update t₁.mark m ((t₁.mark m).setLine none (-1) 0) }
  have hok₂ : t₂.Ok lev := ⟨⟨⟨hok₁.shape, hok₁.isBottom, hok₁.fresh⟩, hok₁.counts, hok₁.marks,
    hok₁.count_lt, hok₁.nMarks_lt⟩, hok₁.filled⟩
  have hmem₁ := List.mem_of_getElem? hx₁
  have hlt := hm₁.nMarks_lt
  obtain ⟨t₃, hexec, hr⟩ := restock_spec hok₂ hm₁.stocked hmem₁ (A ++ B) (-1) (by omega)
    (by simp [t₂, hmarks₁]; omega) (show ((t₁.nMarks t₁.root : ℕ) : ℤ) + -1 < 2 ^ 31 by omega)
  have herase : (t.marks x).erase m = A ++ B := by
    rw [hAB, List.erase_append_right _ hnd.1.1, List.erase_cons_head]
  have hmark (m' : MarkPtr) : t₃.mark m' =
      if m' = m then (t₁.mark m).setLine none (-1) 0 else t₁.mark m' := by
    rw [hr.mark]
    exact Function.update_apply ..
  have hlines : t₃.lines = t₁.lines := hr.lines
  have hstamp : t₃.stamp = t₁.stamp := hr.stamp
  refine ⟨t₃, ?_, ?_, hlines.trans href.lines, ?_, hstamp.trans href.stamp, ?_, fun m' => ?_⟩
  · have hidx : (A ++ m :: B).idxOf? m = some A.length := idxOf?_append_cons hnd.1.1
    have hof : t₂.marksOf x = A ++ m :: B := (Stocked.marksOf hm₁.stocked hmem₁).trans hmarks₁
    have herase' : (A ++ m :: B).eraseIdx A.length = A ++ B := by
      rw [List.eraseIdx_append_of_length_le le_rfl, Nat.sub_self, List.eraseIdx_cons_zero]
    have hne : t₂.marks x ≠ [] := by simp [t₂, hmarks₁]
    have hset : t₁.setMarkLine m none (-1) 0 = some t₂ := by simp [setMarkLine, t₂]
    simp only [removeMark, hline, hget, Option.bind_eq_bind, Option.bind_some, gAssert_true hline₁,
      hset, lineRemoveMark, gAssert_true hne, hof, hidx, herase']
    exact hexec
  · exact hm₁.of_remove hmem₁ hmarks₁ hr.ok hr.stocked hlines hr.marks hstamp hmark
  · rw [hr.rows (t := t₂) hm₁.nodup_lines hx₁, herase, ← href.rows]
    rfl
  · simp [hmark, LineMark.setLine]
  · rw [hmark, ← href.buffer]
    by_cases hmm : m' = m <;> simp [hmm, LineMark.setLine]

/-- Only `m` is added to a row, or taken from it. -/
theorem onLine_set {i : ℕ} {row row' : List MarkPtr} {m' : MarkPtr} (hrow : t.rows[i]? = some row)
    (hrows : t'.rows = t.rows.set i row') (hmem : m' ∈ row' ↔ m' ∈ row) (k : ℕ) :
    t'.OnLine k m' ↔ t.OnLine k m' := by
  obtain ⟨hi, -⟩ := List.getElem?_eq_some_iff.1 hrow
  rw [OnLine, OnLine, hrows]
  obtain rfl | hne := eq_or_ne k i
  · simp [List.getElem?_set_self hi, hrow, hmem]
  · rw [List.getElem?_set_ne hne.symm]

/-- `_moo_line_buffer_move_mark` -/
theorem moveMark_spec (hm : t.Marked []) {i j : ℕ} {x : Ptr} (hx : t.lines[i]? = some x)
    {m : MarkPtr} (hmx : m ∈ t.marks x) (hj : j < t.rows.length) :
    ∃ t', t.moveMark m j = some t' ∧ t'.Marked [] ∧ t'.lines = t.lines ∧ t'.stamp = t.stamp ∧
      t'.OnLine j m ∧ (∀ k m', m' ≠ m → (t'.OnLine k m' ↔ t.OnLine k m')) ∧
      ∀ m', (t'.mark m').buffer = (t.mark m').buffer := by
  obtain ⟨t₁, hremove, hm₁, hlines₁, hrows₁, hst₁, hline₁, hbuf₁⟩ := removeMark_spec hm hx hmx
  have hmem := List.mem_of_getElem? hx
  have hj₁ : j < t₁.rows.length := by rw [hrows₁, List.length_set]; exact hj
  obtain ⟨y, hy, -⟩ := getData_mem hm₁ hj₁
  have hroot := hm.nMarks_root
  have hroot₁ := hm₁.nMarks_root
  have hlt := hm.nMarks_lt
  have hcount : t₁.rows.flatten.length + 1 = t.rows.flatten.length := by
    have hrow : t.rows[i]? = some (t.marks x) := by rw [getElem?_rows, hx, Option.map_some]
    obtain ⟨hi, hget⟩ := List.getElem?_eq_some_iff.1 hrow
    have hlen := List.length_erase_of_mem hmx
    have hpos := List.length_pos_of_mem hmx
    have hsplit : t.rows = t.rows.take i ++ t.marks x :: t.rows.drop (i + 1) := by
      rw [← hget, List.getElem_cons_drop, List.take_append_drop]
    rw [hrows₁, List.set_eq_take_append_cons_drop, if_pos hi]
    conv_rhs => rw [hsplit]
    simp only [List.flatten_append, List.flatten_cons, List.length_append, hlen]
    omega
  obtain ⟨t₂, hadd, hm₂, hlines₂, hrows₂, hst₂, hbuf₂⟩ := addMark_spec hm₁ hy hline₁ (by omega)
  refine ⟨t₂, ?_, hm₂, hlines₂.trans hlines₁, hst₂.trans hst₁, ?_, fun k m' hne => ?_, fun m' =>
    (hbuf₂ m').trans (hbuf₁ m')⟩
  · rw [moveMark, toInt_size hm, if_pos (by omega), hremove, Option.bind_eq_bind, Option.bind_some, hadd]
  · exact ⟨_, by rw [hrows₂, List.getElem?_set_self hj₁], by simp⟩
  · have hrow : t.rows[i]? = some (t.marks x) := by rw [getElem?_rows, hx, Option.map_some]
    have hrow₁ : t₁.rows[j]? = some (t₁.marks y) := by rw [getElem?_rows, hy, Option.map_some]
    rw [onLine_set hrow₁ hrows₂ (by simp [hne]),
      onLine_set hrow hrows₁ (List.mem_erase_of_ne hne)]

/-- `moo_text_buffer_move_line_mark` keeps the marks in order. -/
theorem moveLineMark_spec (hm : t.Marked []) (m : MarkPtr) (line : ℕ) :
    ∃ t', MarkBuffer.moveLineMark t m line = some t' ∧ t'.Marked [] ∧ t'.lines = t.lines ∧
      t'.stamp = t.stamp ∧
      ((t.mark m).buffer = true → line < t.rows.length → t'.OnLine line m) ∧
      (∀ k m', m' ≠ m → (t'.OnLine k m' ↔ t.OnLine k m')) ∧
      ∀ m', (t'.mark m').buffer = (t.mark m').buffer := by
  rw [MarkBuffer.moveLineMark]
  cases hb : (t.mark m).buffer with
  | false => exact ⟨t, rfl, hm, rfl, rfl, by simp, fun _ _ _ => .rfl, fun _ => rfl⟩
  | true =>
    obtain ⟨x, hmem, hmx⟩ := (hm.live m hb).resolve_left (by simp)
    obtain ⟨i, hx⟩ := List.mem_iff_getElem?.1 hmem
    obtain ⟨t₁, hget, href⟩ := getMarkLine_spec hm hx hmx
    have hm₁ := href.marked hm
    have hon (k : ℕ) (m' : MarkPtr) : t₁.OnLine k m' ↔ t.OnLine k m' := by
      rw [OnLine, OnLine, href.rows]
    simp only [if_true, hget, Option.bind_eq_bind, Option.bind_some]
    by_cases heq : (i : ℤ) = line
    · refine ⟨t₁, if_pos heq, hm₁, href.lines, href.stamp, fun _ _ => ?_, fun k m' _ => hon k m',
        href.buffer⟩
      rw [hon]
      exact ⟨t.marks x, by rw [getElem?_rows, ← Nat.cast_injective heq, hx, Option.map_some], hmx⟩
    · rw [if_neg heq]
      by_cases hlt : line < t₁.rows.length
      · obtain ⟨t₂, hmove, hm₂, hlines, hst, hline, hother, hbuf⟩ := moveMark_spec hm₁
          (href.lines ▸ hx) (href.marks ▸ hmx) hlt
        exact ⟨t₂, hmove, hm₂, hlines.trans href.lines, hst.trans href.stamp, fun _ _ => hline,
          fun k m' hne => (hother k m' hne).trans (hon k m'), fun m' =>
            (hbuf m').trans (href.buffer m')⟩
      · refine ⟨t₁, ?_, hm₁, href.lines, href.stamp, fun _ h => absurd (href.rows ▸ h) hlt,
          fun k m' _ => hon k m', href.buffer⟩
        rw [moveMark, toInt_size hm₁, if_neg (by omega)]

end BTree

end Medit
