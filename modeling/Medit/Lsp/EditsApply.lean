import Medit.Library.TextEdits
import Medit.Lsp.Edits

/-!
# Applying the edits of a server

The edits that a server gives for a text, sorted from the back and applied one after another, change
it as if all ranges had been replaced at once.

## Main definitions

* `span` — the characters that an edit is about.
* `Fits` — edits of one file that are inside its text and do not overlap.

## Main results

* `text_foldl_sortEdits` — the edits of one file.
* `docs_applyFiles`, `opened_applyFiles` — each file gets its edits, and is opened once.
-/

namespace Medit

open CString Paragraphs TextEdits

/-! ## The order of the edits -/

theorem compareEdits_le_iff {a b : LspTextEdit} : compareEdits a b ≤ 0 ↔
    strcmp a.path b.path < 0 ∨ a.path = b.path ∧ (b.startLine < a.startLine ∨
      b.startLine = a.startLine ∧ b.startCharacter ≤ a.startCharacter) := by
  have hzero := @strcmp_eq_zero a.path b.path
  unfold compareEdits
  split_ifs with hpath hline
  · have : a.path ≠ b.path := fun h => hpath (hzero.2 h)
    simp only [this, false_and, or_false]
    omega
  · have hzero' : strcmp a.path b.path = 0 := by omega
    rw [hzero']
    simp only [hzero.1 hzero', true_and]
    omega
  · have hzero' : strcmp a.path b.path = 0 := by omega
    rw [hzero']
    simp only [hzero.1 hzero', true_and]
    omega

theorem compareEdits_trans {a b c : LspTextEdit} (h : compareEdits a b ≤ 0)
    (h' : compareEdits b c ≤ 0) : compareEdits a c ≤ 0 := by
  rw [compareEdits_le_iff] at *
  rcases h with h | ⟨h, hkey⟩ <;> rcases h' with h' | ⟨h', hkey'⟩
  · exact .inl (strcmp_trans h h')
  · exact .inl (h' ▸ h)
  · exact .inl (h ▸ h')
  · exact .inr ⟨h.trans h', by omega⟩

theorem compareEdits_total (a b : LspTextEdit) : compareEdits a b ≤ 0 ∨ compareEdits b a ≤ 0 := by
  have hcomm := strcmp_comm a.path b.path
  have hzero := @strcmp_eq_zero a.path b.path
  rw [compareEdits_le_iff, compareEdits_le_iff, hcomm]
  rcases lt_trichotomy (strcmp a.path b.path) 0 with h | h | h
  · exact .inl (.inl h)
  · have := hzero.1 h
    simp only [this, true_and]
    omega
  · exact .inr (.inl (by omega))

theorem pairwise_sortEdits (edits : List LspTextEdit) :
    (sortEdits edits).Pairwise fun a b => compareEdits a b ≤ 0 := by
  have h := @List.pairwise_mergeSort _ (fun a b => decide (compareEdits a b ≤ 0))
    (fun a b c hab hbc => by simpa using compareEdits_trans (by simpa using hab) (by simpa using hbc))
    (fun a b => by simpa using compareEdits_total a b) edits
  simpa [sortEdits] using h

theorem mem_sortEdits {edits : List LspTextEdit} {e : LspTextEdit} :
    e ∈ sortEdits edits ↔ e ∈ edits := (List.mergeSort_perm ..).mem_iff

/-- The sort keeps the order of edits at one position of one file. -/
theorem filter_sortEdits {edits : List LspTextEdit} {q : LspTextEdit → Bool}
    (h : ∀ a ∈ edits, ∀ b ∈ edits, q a → q b → compareEdits a b ≤ 0) :
    (sortEdits edits).filter q = edits.filter q :=
  filter_mergeSort edits
    (fun a b c hab hbc => by simpa using compareEdits_trans (by simpa using hab) (by simpa using hbc))
    (fun a b => by simpa using compareEdits_total a b)
    (fun a ha b hb hqa hqb => by simpa using h a ha b hb hqa hqb)

/-! ## The range of an edit -/

section Range

variable (encoding : LspPositionEncoding) (buffer : List Sym)

/-- The symbol of which `p` is the position. -/
def iterOf (p : Position) : ℕ :=
  ((List.range (buffer.length + 1)).find? fun i => iterToPosition encoding buffer i = p).getD 0

namespace LspTextEdit

def start (e : LspTextEdit) : Position := ⟨e.startLine, e.startCharacter⟩

def stop (e : LspTextEdit) : Position := ⟨e.endLine, e.endCharacter⟩

/-- The edit is about a range of the buffer. -/
def InText (e : LspTextEdit) : Prop :=
  ∃ i j, i ≤ j ∧ j ≤ buffer.length ∧ iterToPosition encoding buffer i = e.start ∧
    iterToPosition encoding buffer j = e.stop

/-- The characters of the text that the edit is about. -/
def span (e : LspTextEdit) : Edit Char where
  start := charOffset buffer (iterOf encoding buffer e.start)
  stop := charOffset buffer (iterOf encoding buffer e.stop)
  text := e.newText

end LspTextEdit

/-- Edits of one file, in the order of the server: each is inside the text, and they do not overlap.
Insertions may share a position with each other and with a range behind them that starts there. -/
structure Fits (edits : List LspTextEdit) : Prop where
  inText : ∀ e ∈ edits, e.InText encoding buffer
  compatible : (edits.map (·.span encoding buffer)).Pairwise Compatible

end Range

variable {encoding : LspPositionEncoding} {buffer buffer' : List Sym}

theorem iterToPosition_injective {i j : ℕ} (hi : i ≤ buffer.length) (hj : j ≤ buffer.length)
    (h : iterToPosition encoding buffer i = iterToPosition encoding buffer j) : i = j := by
  have := positionToIter_iterToPosition encoding hi
  rw [h, positionToIter_iterToPosition encoding hj] at this
  exact (Option.some.inj this).symm

theorem iterOf_iterToPosition {i : ℕ} (hi : i ≤ buffer.length) :
    iterOf encoding buffer (iterToPosition encoding buffer i) = i := by
  have hsome : ((List.range (buffer.length + 1)).find? fun j =>
      iterToPosition encoding buffer j = iterToPosition encoding buffer i).isSome := by
    rw [List.find?_isSome]
    exact ⟨i, List.mem_range.2 (by omega), by simp⟩
  obtain ⟨j, hj⟩ := Option.isSome_iff_exists.1 hsome
  have hmem := List.mem_range.1 (List.mem_of_find?_eq_some hj)
  have heq := List.find?_some hj
  rw [iterOf, hj, Option.getD_some]
  exact iterToPosition_injective (by omega) hi (by simpa using heq)

namespace LspTextEdit

variable {e : LspTextEdit}

theorem span_eq {i j : ℕ} (hi : i ≤ buffer.length) (hj : j ≤ buffer.length)
    (hstart : iterToPosition encoding buffer i = e.start)
    (hstop : iterToPosition encoding buffer j = e.stop) :
    e.span encoding buffer = ⟨charOffset buffer i, charOffset buffer j, e.newText⟩ := by
  rw [span, ← hstart, ← hstop, iterOf_iterToPosition hi, iterOf_iterToPosition hj]

theorem InText.inside (h : e.InText encoding buffer) :
    (e.span encoding buffer).start ≤ (e.span encoding buffer).stop ∧
      (e.span encoding buffer).stop ≤ (text buffer).length := by
  obtain ⟨i, j, hij, hj, hstart, hstop⟩ := h
  rw [span_eq (hij.trans hj) hj hstart hstop]
  exact ⟨(charOffset_le_iff (hij.trans hj) hj).2 hij, charOffset_le_length buffer j⟩

/-- An edit as a change of the symbols. -/
theorem applyEdit_eq {i j : ℕ} (hij : i ≤ j) (hj : j ≤ buffer.length)
    (hstart : iterToPosition encoding buffer i = e.start)
    (hstop : iterToPosition encoding buffer j = e.stop) :
    applyEdit encoding buffer e = buffer.take i ++ (paragraphs e.newText ++ buffer.drop j) := by
  have hiter : positionToIter encoding buffer ⟨e.startLine, e.startCharacter⟩ = some i := by
    rw [← positionToIter_iterToPosition encoding (hij.trans hj), hstart]
    rfl
  have hiter' : positionToIter encoding buffer ⟨e.endLine, e.endCharacter⟩ = some j := by
    rw [← positionToIter_iterToPosition encoding hj, hstop]
    rfl
  have hlen : (buffer.take i).length = i := List.length_take_of_le (hij.trans hj)
  simp only [applyEdit, hiter, hiter', delete, Nat.min_eq_left hij, Nat.max_eq_right hij]
  split_ifs with hnew
  · rw [Paragraphs.insert, List.take_left' hlen, List.drop_left' hlen]
  · have hnil : e.newText = [] := by simpa using hnew
    simp [hnil, paragraphs]

/-- An edit replaces its range. -/
theorem InText.text_applyEdit (h : e.InText encoding buffer) :
    text (applyEdit encoding buffer e) = (e.span encoding buffer).apply (text buffer) := by
  obtain ⟨i, j, hij, hj, hstart, hstop⟩ := h
  rw [span_eq (hij.trans hj) hj hstart hstop, applyEdit_eq hij hj hstart hstop, Edit.apply,
    take_charOffset, drop_charOffset]
  simp

/-- Nothing happens in front of an edit. -/
theorem InText.take_applyEdit (h : e.InText encoding buffer) {k : ℕ} (hk : k ≤ buffer.length)
    (hle : charOffset buffer k ≤ (e.span encoding buffer).start) :
    (applyEdit encoding buffer e).take k = buffer.take k ∧
      k ≤ (applyEdit encoding buffer e).length := by
  obtain ⟨i, j, hij, hj, hstart, hstop⟩ := h
  have hi := hij.trans hj
  rw [span_eq hi hj hstart hstop, charOffset_le_iff hk hi] at hle
  have hlen : (buffer.take i).length = i := List.length_take_of_le hi
  rw [applyEdit_eq hij hj hstart hstop]
  refine ⟨?_, ?_⟩
  · rw [List.take_append_of_le_length (by omega), List.take_take, Nat.min_eq_left hle]
  · rw [List.length_append, hlen]
    omega

/-- What an edit is about depends on the text up to its end only. -/
theorem InText.of_take (h : e.InText encoding buffer)
    (hframe : ∀ k ≤ buffer.length, charOffset buffer k ≤ (e.span encoding buffer).stop →
      buffer'.take k = buffer.take k ∧ k ≤ buffer'.length) :
    e.InText encoding buffer' ∧ e.span encoding buffer' = e.span encoding buffer := by
  obtain ⟨i, j, hij, hj, hstart, hstop⟩ := h
  have hi := hij.trans hj
  rw [span_eq hi hj hstart hstop] at hframe ⊢
  obtain ⟨htake, -⟩ := hframe i hi ((charOffset_le_iff hi hj).2 hij)
  obtain ⟨htake', hlen⟩ := hframe j hj le_rfl
  have hstart' : iterToPosition encoding buffer' i = e.start := by
    rw [← hstart, iterToPosition, iterToPosition, htake]
  have hstop' : iterToPosition encoding buffer' j = e.stop := by
    rw [← hstop, iterToPosition, iterToPosition, htake']
  refine ⟨⟨i, j, hij, hlen, hstart', hstop'⟩, ?_⟩
  rw [span_eq (hij.trans hlen) hlen hstart' hstop', charOffset, charOffset, htake, htake']
  rfl

/-- Of two edits of one file, the sort puts the one in front that is behind in the text. -/
theorem InText.span_start_le {e' : LspTextEdit} (h : e.InText encoding buffer)
    (h' : e'.InText encoding buffer) (hpath : e.path = e'.path) (hle : compareEdits e e' ≤ 0) :
    (e'.span encoding buffer).start ≤ (e.span encoding buffer).start := by
  obtain ⟨i, j, hij, hj, hstart, hstop⟩ := h
  obtain ⟨i', j', hij', hj', hstart', hstop'⟩ := h'
  have hi := hij.trans hj
  have hi' := hij'.trans hj'
  rw [span_eq hi hj hstart hstop, span_eq hi' hj' hstart' hstop']
  refine (charOffset_le_iff hi' hi).2 ?_
  by_contra hlt
  have hlt := @iterToPosition_lt encoding _ _ _ (Nat.lt_of_not_le hlt) hi'
  rw [hstart, hstart', Position.lt_iff] at hlt
  rw [compareEdits_le_iff, hpath, strcmp_eq_zero.2 rfl] at hle
  simp only [start, lt_irrefl, true_and, false_or] at hlt hle
  omega

/-- Edits that start at one position of one file are equal for the sort. -/
theorem InText.compareEdits_le {e' : LspTextEdit} (h : e.InText encoding buffer)
    (h' : e'.InText encoding buffer) (hpath : e.path = e'.path)
    (heq : (e.span encoding buffer).start = (e'.span encoding buffer).start) :
    compareEdits e e' ≤ 0 := by
  obtain ⟨i, j, hij, hj, hstart, hstop⟩ := h
  obtain ⟨i', j', hij', hj', hstart', hstop'⟩ := h'
  have hi := hij.trans hj
  have hi' := hij'.trans hj'
  rw [span_eq hi hj hstart hstop, span_eq hi' hj' hstart' hstop'] at heq
  obtain rfl : i = i' := le_antisymm ((charOffset_le_iff hi hi').1 heq.le)
    ((charOffset_le_iff hi' hi).1 heq.ge)
  rw [hstart, start, start, Position.mk.injEq] at hstart'
  exact compareEdits_le_iff.2 (.inr ⟨hpath, .inr ⟨hstart'.1.symm, hstart'.2.ge⟩⟩)

end LspTextEdit

/-! ## The edits of one file -/

/-- Edits in the order of the text, done from the last one on. -/
theorem text_foldr_applyEdit {edits : List LspTextEdit}
    (hin : ∀ e ∈ edits, e.InText encoding buffer)
    (hord : edits.Pairwise fun x y =>
      (x.span encoding buffer).stop ≤ (y.span encoding buffer).start) :
    text (edits.foldr (fun e buffer => applyEdit encoding buffer e) buffer) =
      (edits.map (·.span encoding buffer)).foldr Edit.apply (text buffer) := by
  induction edits using List.reverseRecOn generalizing buffer with
  | nil => rfl
  | append_singleton edits e ih =>
    obtain ⟨hord, -, hlast⟩ := List.pairwise_append.1 hord
    have he := hin e (by simp)
    have hkeep : ∀ x ∈ edits, x.InText encoding (applyEdit encoding buffer e) ∧
        x.span encoding (applyEdit encoding buffer e) = x.span encoding buffer := fun x hx =>
      (hin x (by simp [hx])).of_take fun k hk hle =>
        he.take_applyEdit hk (hle.trans (hlast x hx e (by simp)))
    have hmap : edits.map (·.span encoding (applyEdit encoding buffer e)) =
        edits.map (·.span encoding buffer) := List.map_congr_left fun x hx => (hkeep x hx).2
    have hord' : edits.Pairwise fun x y => (x.span encoding (applyEdit encoding buffer e)).stop ≤
        (y.span encoding (applyEdit encoding buffer e)).start :=
      hord.imp_of_mem fun hx hy hxy => by rwa [(hkeep _ hx).2, (hkeep _ hy).2]
    rw [List.foldr_append, List.foldr_cons, List.foldr_nil, ih (fun x hx => (hkeep x hx).1) hord',
      hmap, he.text_applyEdit, List.map_append, List.foldr_append]
    rfl

/-- The edits of one file out of a list that has been prepended one by one and sorted. -/
theorem text_foldl_sortEdits {edits : List LspTextEdit} {path : Path}
    (h : Fits encoding buffer (edits.filter (·.path = path))) :
    text (((sortEdits edits.reverse).filter (·.path = path)).foldl (applyEdit encoding) buffer) =
      replaceAll ((edits.filter (·.path = path)).map (·.span encoding buffer)) (text buffer) := by
  have hmem {e : LspTextEdit} : e ∈ ((sortEdits edits.reverse).filter (·.path = path)).reverse ↔
      e ∈ edits.filter (·.path = path) := by
    simp [mem_sortEdits]
  have hpath {e : LspTextEdit} (he : e ∈ edits.filter (·.path = path)) : e.path = path := by
    simpa using (List.mem_filter.1 he).2
  have hin : ∀ e ∈ ((sortEdits edits.reverse).filter (·.path = path)).reverse,
      e.InText encoding buffer := fun e he => h.inText e (hmem.1 he)
  have hstable (p : ℕ) :
      ((((sortEdits edits.reverse).filter (·.path = path)).reverse.map
        (·.span encoding buffer)).filter (·.start = p)) =
      (((edits.filter (·.path = path)).map (·.span encoding buffer)).filter (·.start = p)) := by
    have hsort := filter_sortEdits
      (q := fun e => decide ((e.span encoding buffer).start = p) && decide (e.path = path)) <| by
        intro a ha b hb hqa hqb
        simp only [Bool.and_eq_true, decide_eq_true_eq] at hqa hqb
        refine (h.inText a ?_).compareEdits_le (h.inText b ?_) (hqa.2.trans hqb.2.symm)
          (hqa.1.trans hqb.1.symm)
        · exact List.mem_filter.2 ⟨List.mem_reverse.1 ha, by simpa using hqa.2⟩
        · exact List.mem_filter.2 ⟨List.mem_reverse.1 hb, by simpa using hqb.2⟩
    rw [List.filter_map, List.filter_map, List.filter_reverse, List.filter_filter,
      List.filter_filter]
    simp only [Function.comp_def]
    rw [hsort, List.filter_reverse, List.reverse_reverse]
  have hsorted : (((sortEdits edits.reverse).filter (·.path = path)).reverse.map
      (·.span encoding buffer)).Pairwise fun x y => x.start ≤ y.start := by
    rw [List.pairwise_map, List.pairwise_reverse]
    refine ((pairwise_sortEdits _).filter _).imp_of_mem fun {a b} ha hb hab => ?_
    rw [← List.mem_reverse, hmem] at ha hb
    exact (h.inText a ha).span_start_le (h.inText b hb) ((hpath ha).trans (hpath hb).symm) hab
  have hinside : Inside (text buffer).length
      (((sortEdits edits.reverse).filter (·.path = path)).reverse.map
        (·.span encoding buffer)) := by
    intro x hx
    obtain ⟨e, he, rfl⟩ := List.mem_map.1 hx
    exact (hin e he).inside
  have hle : ∀ x ∈ (edits.filter (·.path = path)).map (·.span encoding buffer),
      x.start ≤ x.stop := by
    intro x hx
    obtain ⟨e, he, rfl⟩ := List.mem_map.1 hx
    exact (h.inText e he).inside.1
  have hord := stops_before hle h.compatible hsorted hstable
  rw [← List.reverse_reverse ((sortEdits edits.reverse).filter _), List.foldl_reverse,
    text_foldr_applyEdit hin (List.pairwise_map.1 hord), foldr_apply hinside hord,
    replaceAll_eq hstable]

/-! ## Several files -/

/-- The edits of each file are together. -/
def Grouped (edits : List LspTextEdit) : Prop :=
  edits.Pairwise fun a b => strcmp a.path b.path ≤ 0

theorem grouped_sortEdits (edits : List LspTextEdit) : Grouped (sortEdits edits) :=
  (pairwise_sortEdits edits).imp fun h => by
    rcases compareEdits_le_iff.1 h with h | ⟨h, -⟩
    · omega
    · exact (strcmp_eq_zero.2 h).le

/-- Behind the edits of the first file there are no more of it. -/
theorem Grouped.path_ne {first : LspTextEdit} {edits : List LspTextEdit}
    (h : Grouped (first :: edits)) : ∀ e ∈ edits.dropWhile (fun e => e.path = first.path),
      e.path ≠ first.path := by
  intro e he hpath
  obtain ⟨hfirst, hedits⟩ := List.pairwise_cons.1 h
  cases hdrop : edits.dropWhile fun e => e.path = first.path with
  | nil => simp [hdrop] at he
  | cons r rest =>
    have hr : r.path ≠ first.path := by
      have hne : edits.dropWhile (fun e => decide (e.path = first.path)) ≠ [] := by simp [hdrop]
      simpa [hdrop] using List.head_dropWhile_not _ hne
    have hrest : (r :: rest).Pairwise fun a b => strcmp a.path b.path ≤ 0 :=
      hdrop ▸ hedits.sublist (List.dropWhile_sublist _)
    have hmem : r ∈ edits := (List.dropWhile_sublist _).subset (hdrop ▸ List.mem_cons_self)
    have hle := hfirst r hmem
    rw [hdrop] at he
    rcases List.mem_cons.1 he with rfl | he
    · exact hr hpath
    · have hback := (List.pairwise_cons.1 hrest).1 e he
      have hzero : strcmp r.path first.path = 0 := by
        rw [hpath] at hback
        have := strcmp_comm r.path first.path
        omega
      exact hr (strcmp_eq_zero.1 hzero)

theorem Grouped.dropWhile {edits : List LspTextEdit} (h : Grouped edits)
    (q : LspTextEdit → Bool) : Grouped (edits.dropWhile q) :=
  h.sublist (List.dropWhile_sublist q)

/-- The edits of the first file are the ones in front. -/
theorem Grouped.filter_eq {first : LspTextEdit} {edits : List LspTextEdit}
    (h : Grouped (first :: edits)) (path : Path) :
    (first :: edits).filter (·.path = path) =
      if path = first.path then first :: edits.takeWhile (fun e => e.path = first.path)
      else (edits.dropWhile fun e => e.path = first.path).filter (·.path = path) := by
  have hsplit := List.takeWhile_append_dropWhile (p := fun e : LspTextEdit =>
    decide (e.path = first.path)) (l := edits)
  have htake : ∀ e ∈ edits.takeWhile (fun e => e.path = first.path), e.path = first.path :=
    fun e he => by simpa using List.mem_takeWhile_imp he
  split_ifs with hpath
  · subst hpath
    have hdrop : (edits.dropWhile fun e => e.path = first.path).filter (·.path = first.path) = [] :=
      List.filter_eq_nil_iff.2 fun e he => by simpa using h.path_ne e he
    rw [List.filter_cons_of_pos (by simp)]
    nth_rewrite 1 [← hsplit]
    rw [List.filter_append, hdrop, List.append_nil, List.filter_eq_self.2]
    exact fun e he => by simpa using htake e he
  · have htake' : (edits.takeWhile fun e => e.path = first.path).filter (·.path = path) = [] :=
      List.filter_eq_nil_iff.2 fun e he => by simpa [htake e he] using fun h => hpath h.symm
    rw [List.filter_cons_of_neg (by simpa using fun h => hpath h.symm)]
    nth_rewrite 1 [← hsplit]
    rw [List.filter_append, htake', List.nil_append]

/-- Each file gets its edits. -/
theorem docs_applyFiles {fuel : ℕ} {edits : List LspTextEdit} (h : Grouped edits)
    (hfuel : edits.length ≤ fuel) (editor : Editor) (path : Path) :
    (applyFiles encoding fuel edits editor).docs path = (editor.docs path).map fun buffer =>
      (edits.filter (·.path = path)).foldl (applyEdit encoding) buffer := by
  induction fuel generalizing edits editor with
  | zero =>
    obtain rfl := List.length_eq_zero_iff.1 (Nat.le_zero.1 hfuel)
    simp [applyFiles]
  | succ fuel ih =>
    cases edits with
    | nil => simp [applyFiles]
    | cons first edits =>
      have hrest : (edits.dropWhile fun e => e.path = first.path).length ≤ fuel :=
        (List.dropWhile_sublist _).length_le.trans (Nat.le_of_succ_le_succ hfuel)
      have hgrouped : Grouped edits := (List.pairwise_cons.1 h).2
      rw [applyFiles, List.dropWhile_cons_of_pos (by simp), List.takeWhile_cons_of_pos (by simp),
        ih (hgrouped.dropWhile _) hrest, h.filter_eq]
      by_cases hpath : path = first.path
      · subst hpath
        have hnil : (edits.dropWhile fun e => e.path = first.path).filter
            (·.path = first.path) = [] :=
          List.filter_eq_nil_iff.2 fun e he => by simpa using h.path_ne e he
        simp [hnil, Editor.applyEdits, Editor.openPath, Function.comp_def]
      · simp [hpath, Editor.applyEdits, Editor.openPath]

/-- Each file is opened once. -/
theorem opened_applyFiles {fuel : ℕ} {edits : List LspTextEdit} (h : Grouped edits)
    (hfuel : edits.length ≤ fuel) (editor : Editor) :
    ∃ paths, (applyFiles encoding fuel edits editor).opened = editor.opened ++ paths ∧
      paths.Nodup ∧ ∀ path, path ∈ paths ↔ ∃ e ∈ edits, e.path = path := by
  induction fuel generalizing edits editor with
  | zero =>
    obtain rfl := List.length_eq_zero_iff.1 (Nat.le_zero.1 hfuel)
    exact ⟨[], by simp [applyFiles], List.nodup_nil, by simp⟩
  | succ fuel ih =>
    cases edits with
    | nil => exact ⟨[], by simp [applyFiles], List.nodup_nil, by simp⟩
    | cons first edits =>
      have hrest : (edits.dropWhile fun e => e.path = first.path).length ≤ fuel :=
        (List.dropWhile_sublist _).length_le.trans (Nat.le_of_succ_le_succ hfuel)
      have hgrouped : Grouped edits := (List.pairwise_cons.1 h).2
      obtain ⟨paths, hopened, hnodup, hmem⟩ := ih (hgrouped.dropWhile _) hrest
        ((editor.openPath first.path).applyEdits encoding first.path
          (first :: edits.takeWhile fun e => e.path = first.path))
      refine ⟨first.path :: paths, ?_, List.nodup_cons.2 ⟨fun hin => ?_, hnodup⟩, fun path => ?_⟩
      · rw [applyFiles, List.dropWhile_cons_of_pos (by simp), List.takeWhile_cons_of_pos (by simp),
          hopened]
        simp [Editor.applyEdits, Editor.openPath]
      · obtain ⟨e, he, hpath⟩ := (hmem _).1 hin
        exact h.path_ne e he hpath
      · have hiff := h.filter_eq path
        have hexists {l : List LspTextEdit} :
            (∃ e ∈ l, e.path = path) ↔ l.filter (·.path = path) ≠ [] := by
          simp [List.filter_eq_nil_iff]
        rw [List.mem_cons, hmem, hexists, hexists, hiff]
        split_ifs with hpath <;> simp [hpath]

end Medit
