import Mathlib.Logic.Function.Basic
import Medit.Library.LineRows

/-!
# Bookmarks of a document

Translation of `mooeditbookmark.cpp`: the list of bookmarks of a document and the marks on its
lines, which edits of the text move and delete. The line buffer is given by its rows of marks, of
which only bookmarks are kept here; an edit is given by its lines, as in `mootextbuffer.cpp`.

## Main definitions

* `MooEdit` — the bookmarks of a document.
* `MooEdit.run` — additions, removals and toggles between edits and idle updates.
* `MooEdit.Ok` — what holds of every document.

## Main results

* `MooEdit.updateBookmarks_ok` — what an update makes of the list.
* `MooEdit.bookmarks_run` — the list after any run, and when toggling a line does what it says.
-/

namespace Medit.Bookmark

open Function (update)
open LineRows

/-- What a document has for its bookmarks. A bookmark is `connected` while its data
`moo-edit-bookmark` is set; `active` says that the menu of a window shows the document. -/
structure MooEdit where
  rows : List (List ℕ)
  bookmarks : List ℕ
  updateBookmarksIdle : Bool
  connected : ℕ → Bool
  no : ℕ → ℕ
  active : Bool
  next : ℕ

namespace MooEdit

/-! ## The list -/

def getLineCount (e : MooEdit) : ℕ := e.rows.length

/-- The bookmarks in the buffer. Any other one is deleted. -/
def attached (e : MooEdit) : List ℕ := e.rows.flatten

/-- `moo_line_mark_get_line` -/
def line (e : MooEdit) (mark : ℕ) : ℕ := rowOf e.rows mark

/-- `moo_text_buffer_get_line_marks_at_line` -/
def lineMarksAtLine (e : MooEdit) (line : ℕ) : List ℕ := e.rows.getD line []

/-- `disconnect_bookmark` -/
def disconnect (e : MooEdit) (bk : ℕ) : MooEdit :=
  { e with connected := update e.connected bk false }

/-- `_moo_line_buffer_remove_mark` -/
def removeMark (e : MooEdit) (mark : ℕ) : MooEdit := { e with rows := keep (· ≠ mark) e.rows }

/-- `update_bookmarks` -/
def updateBookmarks (e : MooEdit) : MooEdit :=
  let deleted := (e.bookmarks.filter (· ∉ e.attached)).reverse
  let new := (e.bookmarks.filter (· ∈ e.attached)).reverse
  let e₀ := deleted.foldl disconnect { e with bookmarks := [], updateBookmarksIdle := false }
  let split := splitRepeats e.line [] [] (new.insertionSort (e.line · ≤ e.line ·))
  -- The signal that a mark is deleted finds it disconnected here.
  let e₁ := split.2.foldl (fun e dup => (e.disconnect dup).removeMark dup) e₀
  { e₁ with bookmarks := split.1.reverse }

/-- `update_bookmarks_now`, and the idle function -/
def updateBookmarksNow (e : MooEdit) : MooEdit :=
  if e.updateBookmarksIdle then e.updateBookmarks else e

/-- `moo_edit_list_bookmarks`, and what calls it to look for a bookmark -/
def listBookmarks (e : MooEdit) : List ℕ × MooEdit :=
  (e.updateBookmarksNow.bookmarks, e.updateBookmarksNow)

/-- `bookmarks_changed`: the window whose menu shows the document lists its bookmarks. -/
def bookmarksChanged (e : MooEdit) : MooEdit := if e.active then e.listBookmarks.2 else e

/-! ## Signals -/

/-- `_moo_edit_line_mark_moved` -/
def lineMarkMoved (e : MooEdit) (mark : ℕ) : MooEdit :=
  if e.connected mark ∧ ¬ e.updateBookmarksIdle then
    { e with updateBookmarksIdle := true }.bookmarksChanged
  else e

/-- `_moo_edit_line_mark_deleted` -/
def lineMarkDeleted (e : MooEdit) (mark : ℕ) : MooEdit :=
  if e.connected mark ∧ mark ∈ e.bookmarks then
    { e.disconnect mark with bookmarks := e.bookmarks.erase mark }.bookmarksChanged
  else e

/-- `moo_text_buffer_delete_line_mark` -/
def deleteLineMark (e : MooEdit) (mark : ℕ) : MooEdit := (e.removeMark mark).lineMarkDeleted mark

/-- `moo_text_buffer_move_line_mark` -/
def moveLineMark (e : MooEdit) (mark line : ℕ) : MooEdit :=
  if mark ∉ e.attached ∨ e.line mark = line then e
  else { e.removeMark mark with rows := put (e.removeMark mark).rows line mark }.lineMarkMoved mark

/-! ## Edits -/

/-- What `moo_text_buffer_insert_text` does to the lines: `num` lines come behind the line `first`,
and the marks of that one go to the last of them if the text starts the line with its end. -/
def insertLines (e : MooEdit) (first num : ℕ) (push : Bool) : MooEdit :=
  let e' := { e with
    rows := e.rows.take (first + 1) ++ (List.replicate num [] ++ e.rows.drop (first + 1)) }
  if push then (e'.lineMarksAtLine first).foldl (·.moveLineMark · (first + num)) e' else e'

/-- `marks_moved_or_deleted` -/
def marksMovedOrDeleted (e : MooEdit) (moved deleted : List ℕ) : MooEdit :=
  moved.foldl (fun e mark => if mark ∈ e.attached then e.lineMarkMoved mark else e)
    (deleted.foldl lineMarkDeleted e)

/-- What `moo_text_buffer_delete_range` does to the lines: from the start of a line it takes the
lines `first` to `last - 1` with their marks, and from inside of one it takes the lines
`first + 1` to `last`, of which the marks of the last one go to the line `first`. -/
def deleteLines (e : MooEdit) (first last : ℕ) (startsLine : Bool) : MooEdit :=
  if first < last then
    if startsLine then
      { e with rows := e.rows.take first ++ e.rows.drop last }.marksMovedOrDeleted []
        ((e.rows.drop first).take (last - first)).flatten
    else
      { e with rows := e.rows.take first ++
          (e.lineMarksAtLine first ++ e.lineMarksAtLine last) :: e.rows.drop (last + 1)
        }.marksMovedOrDeleted (e.lineMarksAtLine last)
          ((e.rows.drop (first + 1)).take (last - first - 1)).flatten
  else e

/-! ## Calls -/

/-- `moo_edit_get_bookmark_at_line` -/
def getBookmarkAtLine (e : MooEdit) (line : ℕ) : Option ℕ :=
  if line < e.getLineCount then (e.lineMarksAtLine line).find? (· ∈ e.bookmarks) else none

/-- `moo_edit_remove_bookmark` -/
def removeBookmark (e : MooEdit) (bookmark : ℕ) : MooEdit :=
  if bookmark ∈ e.bookmarks then
    ({ e.disconnect bookmark with bookmarks := e.bookmarks.erase bookmark }.deleteLineMark
      bookmark).bookmarksChanged
  else e

/-- `get_unused_bookmark_no` -/
def getUnusedBookmarkNo (e : MooEdit) : ℕ × MooEdit :=
  let (list, e') := e.listBookmarks
  (((List.range' 1 9).find? fun i => list.all (e'.no · ≠ i)).getD 0, e')

/-- `moo_edit_add_bookmark` -/
def addBookmark (e : MooEdit) (line no : ℕ) : MooEdit :=
  if line < e.getLineCount ∧ e.getBookmarkAtLine line = none then
    let bk := e.next
    let e₀ := { e with
      rows := put e.rows line bk, connected := update e.connected bk true, next := bk + 1 }
    let (no, e₁) := if no = 0 then e₀.getUnusedBookmarkNo else (no, e₀)
    { e₁ with
      no := update e₁.no bk no
      bookmarks := if e₁.updateBookmarksIdle then bk :: e₁.bookmarks
        else e₁.bookmarks.orderedInsert (e₁.line · ≤ e₁.line ·) bk }.bookmarksChanged
  else e

/-- `moo_edit_toggle_bookmark` -/
def toggleBookmark (e : MooEdit) (line : ℕ) : MooEdit :=
  if line < e.getLineCount then
    match e.getBookmarkAtLine line with
    | some bk => e.removeBookmark bk
    | none => e.addBookmark line 0
  else e

/-- `edit_changed`: a window shows the document in its menu, or no longer does. -/
def activate (e : MooEdit) (active : Bool) : MooEdit := { e with active }.bookmarksChanged

/-- The document of an empty text. -/
def new : MooEdit := ⟨[[]], [], false, fun _ => false, fun _ => 0, false, 0⟩

/-! ## What holds -/

variable {e e' : MooEdit} {out pending gone l : List ℕ} {m : ℕ}

/-- What holds of a document. While a call is going on the bookmarks `out` are not in the list yet,
the ones of `gone` are still there, and the signals about those of `pending` are to come. -/
structure Ok (out pending gone : List ℕ) (e : MooEdit) : Prop where
  nodup : e.attached.Nodup
  lt : ∀ m ∈ out ++ e.bookmarks, m < e.next
  listed : (out ++ e.bookmarks).Nodup
  mem : ∀ m ∈ e.attached, m ∈ out ++ e.bookmarks
  out_live : ∀ m ∈ out, m ∈ e.attached
  live : ∀ m ∈ e.bookmarks, m ∈ e.attached ∨ m ∈ gone
  dead : ∀ m ∈ gone, m ∉ e.attached ∧ m ∉ pending
  connected : ∀ m, e.connected m = true ↔ m ∈ out ++ e.bookmarks
  alone : ∀ a ∈ out, ∀ m ∈ e.bookmarks, e.line m ≠ e.line a
  sorted : e.updateBookmarksIdle = false →
    Increasing e.line (e.bookmarks.filter (· ∈ e.attached)) ∨ ∃ m ∈ pending, m ∈ e.bookmarks
  numbers : ∀ a ∈ e.bookmarks, ∀ b ∈ e.bookmarks, e.no a ≠ 0 → e.no a = e.no b → a = b
  no_lt : ∀ a ∈ e.bookmarks, e.no a < 10

theorem Ok.mem_iff (h : Ok [] pending [] e) : m ∈ e.bookmarks ↔ m ∈ e.attached :=
  ⟨fun hm => by simpa using h.live m hm, fun hm => by simpa using h.mem m hm⟩

theorem filter_attached (h : ∀ m ∈ e.bookmarks, m ∈ e.attached) :
    e.bookmarks.filter (· ∈ e.attached) = e.bookmarks :=
  List.filter_eq_self.2 fun m hm => decide_eq_true (h m hm)

theorem increasing_filter (h : ∀ m ∈ e.bookmarks, m ∈ e.attached)
    (hinc : Increasing e.line e.bookmarks) :
    Increasing e.line (e.bookmarks.filter (· ∈ e.attached)) := by
  rwa [filter_attached h]

theorem Ok.increasing (h : Ok [] [] [] e) (hidle : e.updateBookmarksIdle = false) :
    Increasing e.line e.bookmarks := by
  have := (h.sorted hidle).resolve_right (by simp)
  rwa [filter_attached fun _ => h.mem_iff.1] at this

/-- The lines have no more than one bookmark while the list is up to date. -/
theorem Ok.thin (h : Ok [] [] [] e) (hidle : e.updateBookmarksIdle = false) : Thin e.rows :=
  thin_of_increasing h.nodup (h.increasing hidle) fun _ hm => h.mem_iff.2 hm

theorem Ok.eq_attached (h : Ok [] [] [] e) (hidle : e.updateBookmarksIdle = false) :
    e.bookmarks = e.attached :=
  (h.thin hidle).eq_flatten h.nodup (h.increasing hidle) fun _ => h.mem_iff

/-- The lines that have a bookmark are the same in both documents. -/
def SameLines (e e' : MooEdit) : Prop :=
  ∀ i, e'.lineMarksAtLine i = [] ↔ e.lineMarksAtLine i = []

/-! ## The update -/

theorem disconnect_foldl (l : List ℕ) (e : MooEdit) :
    l.foldl disconnect e = { e with connected := fun m => e.connected m && m ∉ l } := by
  induction l generalizing e with
  | nil => simp
  | cons a l ih =>
    rw [List.foldl_cons, ih]
    simp only [disconnect, MooEdit.mk.injEq, true_and, and_true]
    funext m
    by_cases hm : m = a <;> simp [hm]

theorem removeMark_foldl (l : List ℕ) (e : MooEdit) :
    l.foldl (fun e dup => (e.disconnect dup).removeMark dup) e =
      { e with rows := keep (· ∉ l) e.rows, connected := fun m => e.connected m && m ∉ l } := by
  induction l generalizing e with
  | nil => simp
  | cons a l ih =>
    rw [List.foldl_cons, ih]
    simp only [disconnect, removeMark, keep_keep, MooEdit.mk.injEq, true_and, and_true]
    refine ⟨congrFun (congrArg keep ?_) _, ?_⟩
    · funext m
      by_cases hm : m = a <;> simp [hm]
    · funext m
      by_cases hm : m = a <;> simp [hm]

/-- What an update leaves: of the bookmarks in the buffer, one on each line they were on. -/
structure Updated (e e' : MooEdit) (dup : List ℕ) : Prop where
  idle : e'.updateBookmarksIdle = false
  rows : e'.rows = keep (· ∉ dup) e.rows
  next : e'.next = e.next
  no : e'.no = e.no
  perm : (e'.bookmarks ++ dup).Perm (e.bookmarks.filter (· ∈ e.attached))
  connected : ∀ m, e'.connected m = true ↔
    e.connected m = true ∧ m ∉ dup ∧ (m ∈ e.bookmarks → m ∈ e.attached)
  increasing : Increasing e.line e'.bookmarks
  has : ∀ m ∈ dup, ∃ a ∈ e'.bookmarks, e.line a = e.line m

theorem updateBookmarks_updated (e : MooEdit) : ∃ dup, Updated e e.updateBookmarks dup := by
  have hperm := List.perm_insertionSort (e.line · ≤ e.line ·)
    (e.bookmarks.filter (· ∈ e.attached)).reverse
  obtain ⟨hsplit, hinc, hhas⟩ := splitRepeats_spec (pairwise_insertionSort e.line
    (e.bookmarks.filter (· ∈ e.attached)).reverse)
  refine ⟨(splitRepeats e.line [] [] ((e.bookmarks.filter (· ∈ e.attached)).reverse.insertionSort
    (e.line · ≤ e.line ·))).2, ?_⟩
  simp only [updateBookmarks, disconnect_foldl, removeMark_foldl]
  refine ⟨rfl, rfl, rfl, rfl, ?_, fun m => ?_, hinc, fun m hm => hhas m ?_⟩
  · exact (hsplit.trans hperm).trans (List.reverse_perm _)
  · simp only [Bool.and_eq_true, decide_eq_true_eq, List.mem_reverse, List.mem_filter]
    grind
  · exact hsplit.mem_iff.1 (by simp [hm])

theorem Updated.attached (u : Updated e e' l) : e'.attached = e.attached.filter (· ∉ l) := by
  rw [MooEdit.attached, u.rows, flatten_keep, MooEdit.attached]

theorem Updated.line (u : Updated e e' l) (hm : m ∉ l) : e'.line m = e.line m := by
  rw [MooEdit.line, u.rows, rowOf_keep (by simpa using hm), MooEdit.line]

/-- Of the bookmarks in the buffer, an update takes some from the list. -/
theorem Updated.mem (u : Updated e e' l) :
    m ∈ e'.bookmarks ∨ m ∈ l ↔ m ∈ e.bookmarks ∧ m ∈ e.attached := by
  simpa using u.perm.mem_iff (a := m)

theorem Ok.updated (h : Ok out pending gone e) (u : Updated e e' l) : Ok out pending gone e' := by
  obtain ⟨hout, hbks, hdis⟩ := List.nodup_append'.1 h.listed
  obtain ⟨hbks', -, hdis'⟩ := List.nodup_append'.1 (u.perm.nodup_iff.2 (hbks.filter _))
  have hsub (m : ℕ) (hm : m ∈ e'.bookmarks) : m ∈ e.bookmarks ∧ m ∈ e.attached :=
    u.mem.1 (.inl hm)
  have hnot (m : ℕ) (hm : m ∈ e'.bookmarks) : m ∉ l := List.disjoint_left.1 hdis' hm
  have hnot' (m : ℕ) (hm : m ∈ out) : m ∉ l := fun hl =>
    List.disjoint_left.1 hdis hm (u.mem.1 (.inr hl)).1
  have hatt (m : ℕ) : m ∈ e'.attached ↔ m ∈ e.attached ∧ m ∉ l := by simp [u.attached]
  refine ⟨?_, fun m hm => ?_, ?_, fun m hm => ?_, fun m hm => ?_, fun m hm => ?_, fun m hm => ?_,
    fun m => ?_, fun a ha m hm => ?_, fun _ => .inl ?_, fun a ha b hb => ?_, fun a ha => ?_⟩
  · rw [u.attached]
    exact h.nodup.filter _
  · rw [u.next]
    refine h.lt m ?_
    obtain hm | hm := List.mem_append.1 hm
    · simp [hm]
    · simp [(hsub m hm).1]
  · exact List.nodup_append'.2 ⟨hout, hbks', fun m ho hm =>
      List.disjoint_left.1 hdis ho (hsub m hm).1⟩
  · obtain ⟨hm, hl⟩ := (hatt m).1 hm
    obtain ho | hb := List.mem_append.1 (h.mem m hm)
    · simp [ho]
    · simp [(u.mem.2 ⟨hb, hm⟩).resolve_right hl]
  · exact (hatt m).2 ⟨h.out_live m hm, hnot' m hm⟩
  · exact .inl ((hatt m).2 ⟨(hsub m hm).2, hnot m hm⟩)
  · exact ⟨fun ha => (h.dead m hm).1 ((hatt m).1 ha).1, (h.dead m hm).2⟩
  · rw [u.connected, h.connected, List.mem_append, List.mem_append]
    constructor
    · rintro ⟨ho | hb, hl, hm⟩
      · exact .inl ho
      · exact .inr ((u.mem.2 ⟨hb, hm hb⟩).resolve_right hl)
    · rintro (ho | hb)
      · exact ⟨.inl ho, hnot' m ho, fun hb => absurd hb (List.disjoint_left.1 hdis ho)⟩
      · exact ⟨.inr (hsub m hb).1, hnot m hb, fun _ => (hsub m hb).2⟩
  · rw [u.line (hnot m hm), u.line (hnot' a ha)]
    exact h.alone a ha m (hsub m hm).1
  · refine increasing_filter (fun m hm => (hatt m).2 ⟨(hsub m hm).2, hnot m hm⟩) ?_
    exact u.increasing.congr fun m hm => u.line (hnot m hm)
  · rw [u.no]
    exact h.numbers a (hsub a ha).1 b (hsub b hb).1
  · rw [u.no]
    exact h.no_lt a (hsub a ha).1

theorem Updated.sameLines (h : Ok out pending gone e) (u : Updated e e' l) : SameLines e e' := by
  have hrow (i : ℕ) : e'.lineMarksAtLine i = (e.lineMarksAtLine i).filter (· ∉ l) := by
    rw [lineMarksAtLine, u.rows, getD_keep, lineMarksAtLine]
  intro i
  rw [hrow]
  refine ⟨fun hnil => ?_, fun hnil => by simp [hnil]⟩
  refine List.eq_nil_iff_forall_not_mem.2 fun m hm => ?_
  have hnone (a : ℕ) (ha : a ∈ e.lineMarksAtLine i) : a ∈ l := by
    simpa using List.filter_eq_nil_iff.1 hnil a ha
  obtain ⟨a, ha, hline⟩ := u.has m (hnone m hm)
  have hi := ((mem_row_iff h.nodup i).1 hm).2
  have hrow := (mem_row_iff h.nodup i).2 ⟨(u.mem.1 (.inl ha)).2, hline.trans hi⟩
  have hnd := u.perm.nodup_iff.2 ((List.nodup_append'.1 h.listed).2.1.filter _)
  exact List.disjoint_left.1 (List.nodup_append'.1 hnd).2.2 ha (hnone a hrow)

/-- An update leaves a bookmark on each line that has one. -/
theorem updateBookmarks_ok (h : Ok out pending gone e) :
    Ok out pending gone e.updateBookmarks ∧ SameLines e e.updateBookmarks := by
  obtain ⟨dup, u⟩ := e.updateBookmarks_updated
  exact ⟨h.updated u, u.sameLines h⟩

theorem updateBookmarksNow_ok (h : Ok out pending gone e) :
    Ok out pending gone e.updateBookmarksNow ∧ SameLines e e.updateBookmarksNow := by
  rw [updateBookmarksNow]
  split_ifs with hidle
  · exact updateBookmarks_ok h
  · exact ⟨h, fun _ => .rfl⟩

theorem bookmarksChanged_ok (h : Ok out pending gone e) :
    Ok out pending gone e.bookmarksChanged ∧ SameLines e e.bookmarksChanged := by
  rw [bookmarksChanged]
  split_ifs with hact
  · exact updateBookmarksNow_ok h
  · exact ⟨h, fun _ => .rfl⟩

theorem updateBookmarksNow_idle (e : MooEdit) :
    e.updateBookmarksNow.updateBookmarksIdle = false := by
  rw [updateBookmarksNow]
  split_ifs with hidle
  · exact e.updateBookmarks_updated.elim fun _ u => u.idle
  · simpa using hidle

@[simp] theorem getLineCount_bookmarksChanged (e : MooEdit) :
    e.bookmarksChanged.getLineCount = e.getLineCount := by
  obtain ⟨dup, u⟩ := e.updateBookmarks_updated
  have : e.updateBookmarks.getLineCount = e.getLineCount := by
    rw [getLineCount, u.rows, keep, List.length_map, getLineCount]
  rw [bookmarksChanged, listBookmarks, updateBookmarksNow]
  split_ifs <;> simp [this]

/-! ## Signals and edits -/

/-- A bookmark that is not in the buffer goes from the list. -/
theorem Ok.erase (h : Ok [] pending (m :: gone) e) :
    Ok [] pending gone { e.disconnect m with bookmarks := e.bookmarks.erase m } := by
  have hnd : e.bookmarks.Nodup := by simpa using h.listed
  have hmem (a : ℕ) : a ∈ e.bookmarks.erase m ↔ a ≠ m ∧ a ∈ e.bookmarks := hnd.mem_erase_iff
  have hdead := h.dead m (by simp)
  refine ⟨h.nodup, fun a ha => h.lt a ?_, hnd.erase m, fun a ha => ?_, by simp, fun a ha => ?_,
    fun a ha => h.dead a (by simp [ha]), fun a => ?_, by simp, fun hidle => ?_, fun a ha b hb => ?_,
    fun a ha => h.no_lt a ((hmem a).1 ha).2⟩
  · simpa using ((hmem a).1 ha).2
  · exact (hmem a).2 ⟨by rintro rfl; exact hdead.1 ha, by simpa using h.mem a ha⟩
  · obtain ⟨hne, ha⟩ := (hmem a).1 ha
    exact (h.live a ha).imp_right fun ha => (List.mem_cons.1 ha).resolve_left hne
  · simp only [disconnect, List.nil_append, hmem]
    by_cases ham : a = m
    · simp [ham]
    · simpa [ham] using h.connected a
  · obtain hinc | ⟨a, ha, hbk⟩ := h.sorted hidle
    · exact .inl (hinc.sublist ((List.erase_sublist ..).filter _))
    · exact .inr ⟨a, ha, (hmem a).2 ⟨by rintro rfl; exact hdead.2 ha, hbk⟩⟩
  · exact h.numbers a ((hmem a).1 ha).2 b ((hmem b).1 hb).2

theorem lineMarkDeleted_ok (h : Ok [] pending (m :: gone) e) :
    Ok [] pending gone (e.lineMarkDeleted m) := by
  rw [lineMarkDeleted]
  split_ifs with hbk
  · exact (bookmarksChanged_ok h.erase).1
  · have hm : m ∉ e.bookmarks := fun hm => hbk ⟨(h.connected m).2 (by simpa using hm), hm⟩
    refine { h with
      live := fun a ha => ?_
      dead := fun a ha => h.dead a (by simp [ha]) }
    obtain ha | ha := h.live a ha
    · exact .inl ha
    · obtain rfl | ha := List.mem_cons.1 ha
      · contradiction
      · exact .inr ha

theorem lineMarkMoved_ok (h : Ok [] (m :: pending) [] e) :
    Ok [] pending [] (e.lineMarkMoved m) := by
  rw [lineMarkMoved]
  split_ifs with hbk
  · exact (bookmarksChanged_ok (e := { e with updateBookmarksIdle := true })
      { h with sorted := by simp, dead := by simp }).1
  · refine { h with sorted := fun hidle => ?_, dead := by simp }
    obtain hinc | ⟨a, ha, hab⟩ := h.sorted hidle
    · exact .inl hinc
    · obtain rfl | ha := List.mem_cons.1 ha
      · exact absurd ⟨(h.connected a).2 (by simpa using hab), by simp [hidle]⟩ hbk
      · exact .inr ⟨a, ha, hab⟩

theorem Ok.of_not_mem (h : Ok [] (m :: pending) [] e) (hm : m ∉ e.attached) :
    Ok [] pending [] e := by
  refine { h with sorted := fun hidle => ?_, dead := by simp }
  obtain hinc | ⟨a, ha, hab⟩ := h.sorted hidle
  · exact .inl hinc
  · obtain rfl | ha := List.mem_cons.1 ha
    · exact absurd (by simpa using h.live a hab) hm
    · exact .inr ⟨a, ha, hab⟩

theorem lineMarksDeleted_ok (deleted : List ℕ) (h : Ok [] pending deleted e) :
    Ok [] pending [] (deleted.foldl lineMarkDeleted e) := by
  induction deleted generalizing e with
  | nil => exact h
  | cons m deleted ih => exact ih (lineMarkDeleted_ok h)

theorem lineMarksMoved_ok (moved : List ℕ) (h : Ok [] moved [] e) : Ok [] [] []
    (moved.foldl (fun e mark => if mark ∈ e.attached then e.lineMarkMoved mark else e) e) := by
  induction moved generalizing e with
  | nil => exact h
  | cons m moved ih =>
    rw [List.foldl_cons]
    split_ifs with hm
    · exact ih (lineMarkMoved_ok h)
    · exact ih (h.of_not_mem hm)

theorem marksMovedOrDeleted_ok (moved deleted : List ℕ) (h : Ok [] moved deleted e) :
    Ok [] [] [] (e.marksMovedOrDeleted moved deleted) :=
  lineMarksMoved_ok moved (lineMarksDeleted_ok deleted h)

/-- An edit of the rows. The bookmarks `gone` are no longer there, and there will be a signal about
those of `pending`; if there is none, the rows are thin still. -/
theorem Ok.edit (h : Ok [] [] [] e) {rows : List (List ℕ)} (hnd : rows.flatten.Nodup)
    (hmem : ∀ m, m ∈ rows.flatten ↔ m ∈ e.attached ∧ m ∉ gone) (hdis : ∀ m ∈ gone, m ∉ pending)
    (hs : rows.flatten.Sublist e.attached ∧ (Thin e.rows → Thin rows) ∨
      ∃ m ∈ pending, m ∈ e.attached) :
    Ok [] pending gone { e with rows } := by
  refine ⟨hnd, h.lt, h.listed, fun m hm => h.mem m ((hmem m).1 hm).1, by simp, fun m hm => ?_,
    fun m hm => ⟨fun ha => ((hmem m).1 ha).2 hm, hdis m hm⟩, h.connected, by simp, fun hidle => ?_,
    h.numbers, h.no_lt⟩
  · by_cases hg : m ∈ gone
    · exact .inr hg
    · exact .inl ((hmem m).2 ⟨h.mem_iff.1 hm, hg⟩)
  · obtain ⟨hsub, hthin⟩ | ⟨m, hm, ha⟩ := hs
    · left
      have hold : Increasing e.line e.attached := (h.thin hidle).increasing h.nodup
      have heq : e.bookmarks.filter (· ∈ rows.flatten) = rows.flatten := by
        rw [h.eq_attached hidle]
        refine Increasing.eq_of_mem_iff (hold.sublist List.filter_sublist) (hold.sublist hsub)
          fun m => ?_
        simp only [List.mem_filter, decide_eq_true_eq]
        exact ⟨fun hm => hm.2, fun hm => ⟨((hmem m).1 hm).1, hm⟩⟩
      exact heq ▸ (hthin (h.thin hidle)).increasing hnd
    · exact .inr ⟨m, hm, h.mem_iff.2 ha⟩

theorem attached_removeMark (e : MooEdit) (m : ℕ) :
    (e.removeMark m).attached = e.attached.filter (· ≠ m) := flatten_keep _

theorem removeMark_ok (h : Ok [] [] [] e) (m : ℕ) : Ok [] [] [m] (e.removeMark m) := by
  have hflat := e.attached_removeMark m
  rw [attached] at hflat
  refine h.edit ?_ (fun a => ?_) (by simp) (.inl ⟨?_, fun ht => ht.keep _⟩)
  · exact hflat.symm ▸ h.nodup.filter _
  · rw [show keep (· ≠ m) e.rows = (e.removeMark m).rows from rfl, hflat]
    simp
  · exact hflat.symm ▸ List.filter_sublist

theorem moveLineMark_ok (h : Ok [] [] [] e) (m : ℕ) {line : ℕ} (hline : line < e.getLineCount) :
    Ok [] [] [] (e.moveLineMark m line) ∧
      (e.moveLineMark m line).getLineCount = e.getLineCount := by
  rw [moveLineMark]
  split_ifs with hout
  · exact ⟨h, rfl⟩
  · obtain ⟨hm, -⟩ : m ∈ e.attached ∧ e.line m ≠ line := by simpa [not_or] using hout
    have hlen : (e.removeMark m).rows.length = e.getLineCount := List.length_map ..
    have hperm : (put (e.removeMark m).rows line m).flatten.Perm (m :: (e.removeMark m).attached) :=
      flatten_put (hlen ▸ hline)
    rw [attached_removeMark] at hperm
    constructor
    · refine lineMarkMoved_ok (h.edit ?_ (fun a => ?_) (by simp) (.inr ⟨m, by simp, hm⟩))
      · exact hperm.nodup_iff.2 (List.nodup_cons.2 ⟨by simp, h.nodup.filter _⟩)
      · rw [hperm.mem_iff]
        by_cases ham : a = m <;> simp [ham, hm]
    · rw [lineMarkMoved]
      split_ifs
      · rw [getLineCount_bookmarksChanged, getLineCount, put, List.length_modify, hlen]
      · rw [getLineCount, put, List.length_modify, hlen]

theorem moveLineMarks_ok (marks : List ℕ) (h : Ok [] [] [] e) {line : ℕ}
    (hline : line < e.getLineCount) : Ok [] [] [] (marks.foldl (·.moveLineMark · line) e) := by
  induction marks generalizing e with
  | nil => exact h
  | cons m marks ih =>
    obtain ⟨hok, hcount⟩ := moveLineMark_ok h m hline
    exact ih hok (hcount ▸ hline)

theorem insertLines_ok (h : Ok [] [] [] e) (first num : ℕ) (push : Bool) :
    Ok [] [] [] (e.insertLines first num push) := by
  have hflat : (e.rows.take (first + 1) ++ (List.replicate num [] ++
      e.rows.drop (first + 1))).flatten = e.attached := by
    rw [List.flatten_append, List.flatten_append, List.flatten_replicate_nil, List.nil_append,
      ← List.flatten_append, List.take_append_drop, attached]
  have hok : Ok [] [] [] { e with
      rows := e.rows.take (first + 1) ++ (List.replicate num [] ++ e.rows.drop (first + 1)) } := by
    refine h.edit (hflat.symm ▸ h.nodup) (fun m => by rw [hflat]; simp) (by simp)
      (.inl ⟨hflat.symm ▸ List.Sublist.refl _, fun ht r hr => ?_⟩)
    obtain hr | hr | hr : r ∈ e.rows.take (first + 1) ∨ r ∈ List.replicate num [] ∨
      r ∈ e.rows.drop (first + 1) := by simpa only [List.mem_append] using hr
    · exact ht r (List.mem_of_mem_take hr)
    · simp [List.eq_of_mem_replicate hr]
    · exact ht r (List.mem_of_mem_drop hr)
  rw [insertLines]
  split_ifs
  · by_cases hfirst : first < e.rows.length
    · refine moveLineMarks_ok _ hok ?_
      simp only [getLineCount, List.length_append, List.length_take, List.length_replicate,
        List.length_drop]
      omega
    · have hnil : (e.rows.take (first + 1) ++ (List.replicate num [] ++
          e.rows.drop (first + 1))).getD first [] = [] := by
        rw [List.take_of_length_le (by omega), List.drop_of_length_le (by omega),
          List.append_nil, List.getD, List.getElem?_append_right (by omega),
          List.getElem?_replicate]
        split_ifs <;> rfl
      simpa only [lineMarksAtLine, hnil, List.foldl_nil] using hok
  · exact hok

/-- Bookmarks are cut out of the rows, and those of `moved` go to another line. -/
theorem Ok.cut (h : Ok [] [] [] e) {rows : List (List ℕ)} {a d b moved : List ℕ}
    (hatt : e.attached = a ++ (d ++ b)) (hrows : rows.flatten = a ++ b) (hmoved : moved ⊆ b)
    (hthin : moved = [] → Thin e.rows → Thin rows) :
    Ok [] [] [] ({ e with rows }.marksMovedOrDeleted moved d) := by
  have hnd := h.nodup
  rw [hatt] at hnd
  have hsub : (a ++ b).Sublist (a ++ (d ++ b)) :=
    (List.sublist_append_right ..).append_left a
  obtain ⟨-, hdb, had⟩ := List.nodup_append'.1 hnd
  have hdis := (List.nodup_append'.1 hdb).2.2
  refine marksMovedOrDeleted_ok _ _ (h.edit ?_ (fun m => ?_)
    (fun m hm hmv => List.disjoint_left.1 hdis hm (hmoved hmv)) ?_)
  · exact hrows ▸ hsub.nodup hnd
  · rw [hrows, hatt]
    simp only [List.mem_append]
    refine ⟨fun hm => ⟨by tauto, fun hd => ?_⟩, by tauto⟩
    obtain ha | hb := hm
    · exact List.disjoint_left.1 had ha (by simp [hd])
    · exact List.disjoint_left.1 hdis hd hb
  · cases moved with
    | nil => exact .inl ⟨hrows ▸ hatt ▸ hsub, hthin rfl⟩
    | cons m moved =>
      refine .inr ⟨m, by simp, ?_⟩
      rw [hatt]
      simp [hmoved (by simp : m ∈ m :: moved)]

theorem deleteLines_ok (h : Ok [] [] [] e) (first last : ℕ) (startsLine : Bool) :
    Ok [] [] [] (e.deleteLines first last startsLine) := by
  rw [deleteLines]
  split_ifs with hlt hstarts
  · refine h.cut (flatten_split e.rows (Nat.le_of_lt hlt)) List.flatten_append (by simp)
      fun _ ht r hr => ?_
    obtain hr | hr := List.mem_append.1 hr
    · exact ht r (List.mem_of_mem_take hr)
    · exact ht r (List.mem_of_mem_drop hr)
  · have hsplit := flatten_split e.rows (Nat.succ_le_of_lt hlt)
    refine h.cut (a := (e.rows.take first).flatten ++ e.lineMarksAtLine first)
      (b := e.lineMarksAtLine last ++ (e.rows.drop (last + 1)).flatten) ?_ ?_ (by simp)
      fun hnil ht r hr => ?_
    · rw [attached, hsplit, flatten_take_succ, flatten_drop _ last, Nat.sub_sub]
      rfl
    · simp
    · obtain hr | rfl | hr : r ∈ e.rows.take first ∨
        r = e.lineMarksAtLine first ++ e.lineMarksAtLine last ∨ r ∈ e.rows.drop (last + 1) := by
          simpa only [List.mem_append, List.mem_cons] using hr
      · exact ht r (List.mem_of_mem_take hr)
      · rw [hnil, List.append_nil]
        exact ht.getD first
      · exact ht r (List.mem_of_mem_drop hr)
  · exact h

/-! ## Calls -/

theorem removeBookmark_ok (h : Ok [] [] [] e) (bookmark : ℕ) :
    Ok [] [] [] (e.removeBookmark bookmark) ∧
      ∀ i, (e.removeBookmark bookmark).lineMarksAtLine i = [] ↔
        (e.lineMarksAtLine i).filter (· ≠ bookmark) = [] := by
  rw [removeBookmark]
  split_ifs with hbk
  · have hok : Ok [] [] [] ({ e.disconnect bookmark with
        bookmarks := e.bookmarks.erase bookmark }.deleteLineMark bookmark) := by
      have := (removeMark_ok h bookmark).erase
      rw [deleteLineMark, lineMarkDeleted, if_neg (by simp [removeMark, disconnect])]
      exact this
    obtain ⟨hok', hsame⟩ := bookmarksChanged_ok hok
    refine ⟨hok', fun i => (hsame i).trans ?_⟩
    rw [deleteLineMark, lineMarkDeleted, if_neg (by simp [removeMark, disconnect])]
    exact iff_of_eq (congrArg (· = []) (getD_keep _ i))
  · refine ⟨h, fun i => ?_⟩
    rw [List.filter_eq_self.2 fun m hm => ?_]
    have := ((mem_row_iff h.nodup i).1 hm).1
    have hne : m ≠ bookmark := by
      rintro rfl
      exact hbk (h.mem_iff.2 this)
    simp [hne]

theorem getBookmarkAtLine_eq (h : Ok [] [] [] e) {line : ℕ} (hline : line < e.getLineCount) :
    e.getBookmarkAtLine line = (e.lineMarksAtLine line).head? := by
  have hall : ∀ m ∈ e.lineMarksAtLine line, m ∈ e.bookmarks := fun m hm =>
    h.mem_iff.2 ((mem_row_iff h.nodup line).1 hm).1
  rw [getBookmarkAtLine, if_pos hline]
  cases hrow : e.lineMarksAtLine line with
  | nil => rfl
  | cons m l => simp [hall m (by simp [hrow])]

/-- The number that is found is of no bookmark in the list. -/
theorem getUnusedBookmarkNo_spec (h : Ok out [] [] e) :
    Ok out [] [] e.getUnusedBookmarkNo.2 ∧ SameLines e e.getUnusedBookmarkNo.2 ∧
      e.getUnusedBookmarkNo.1 < 10 ∧ (e.getUnusedBookmarkNo.1 ≠ 0 →
        ∀ m ∈ e.getUnusedBookmarkNo.2.bookmarks,
          e.getUnusedBookmarkNo.2.no m ≠ e.getUnusedBookmarkNo.1) := by
  obtain ⟨hok, hsame⟩ := updateBookmarksNow_ok h
  refine ⟨hok, hsame, ?_⟩
  rw [getUnusedBookmarkNo]
  dsimp only [listBookmarks]
  cases hfind : (List.range' 1 9).find? fun i =>
      e.updateBookmarksNow.bookmarks.all (e.updateBookmarksNow.no · ≠ i) with
  | none => simp
  | some i =>
    have hi := List.mem_range'_1.1 (List.mem_of_find?_eq_some hfind)
    refine ⟨by simp; omega, fun _ m hm => ?_⟩
    have hall := List.find?_some hfind
    simpa using List.all_eq_true.1 hall m hm

/-- A new bookmark is on its line before it is in the list. -/
theorem Ok.put (h : Ok [] [] [] e) {line : ℕ} (hline : line < e.getLineCount)
    (hrow : e.lineMarksAtLine line = []) :
    Ok [e.next] [] [] { e with
      rows := put e.rows line e.next
      connected := update e.connected e.next true
      next := e.next + 1 } := by
  have hnew : e.next ∉ e.bookmarks := fun hm => Nat.lt_irrefl _ (h.lt _ (by simpa using hm))
  have hnew' : e.next ∉ e.attached := fun hm => hnew (h.mem_iff.2 hm)
  have hperm : (LineRows.put e.rows line e.next).flatten.Perm (e.next :: e.attached) :=
    flatten_put hline
  have hmem (m : ℕ) : m ∈ (LineRows.put e.rows line e.next).flatten ↔
      m = e.next ∨ m ∈ e.attached := by rw [hperm.mem_iff, List.mem_cons]
  have hold (m : ℕ) (hm : m ∈ e.bookmarks) :
      rowOf (LineRows.put e.rows line e.next) m = e.line m := by
    rw [rowOf_put hline hnew', if_neg (by rintro rfl; exact hnew hm), MooEdit.line]
  refine ⟨hperm.nodup_iff.2 (List.nodup_cons.2 ⟨hnew', h.nodup⟩), fun m hm => ?_, ?_,
    fun m hm => ?_, fun m hm => (hmem m).2 (.inl (by simpa using hm)),
    fun m hm => .inl ((hmem m).2 (.inr (h.mem_iff.1 hm))), by simp, fun m => ?_,
    fun a ha m hm => ?_, fun hidle => .inl ?_, h.numbers, h.no_lt⟩
  · obtain rfl | hm := List.mem_cons.1 hm
    · exact Nat.lt_succ_self _
    · exact Nat.lt_succ_of_lt (h.lt m (by simpa using hm))
  · exact List.nodup_cons.2 ⟨hnew, by simpa using h.listed⟩
  · obtain rfl | hm := (hmem m).1 hm
    · simp
    · simp [h.mem_iff.2 hm]
  · by_cases hm : m = e.next
    · simp [hm]
    · simpa [hm] using h.connected m
  · obtain rfl : a = e.next := by simpa using ha
    have hout : m ∉ e.lineMarksAtLine line := by simp [hrow]
    rw [MooEdit.line, MooEdit.line, hold m hm, rowOf_put hline hnew', if_pos rfl]
    exact fun heq => hout ((mem_row_iff h.nodup line).2 ⟨h.mem_iff.1 hm, heq⟩)
  · refine increasing_filter (fun m hm => (hmem m).2 (.inr (h.mem_iff.1 hm))) ?_
    exact (h.increasing hidle).congr hold

/-- A new bookmark comes into the list, with a number of its own. -/
theorem Ok.list (h : Ok [m] [] [] e) {no : ℕ} (hlt : no < 10)
    (hno : no ≠ 0 → ∀ a ∈ e.bookmarks, e.no a ≠ no) :
    Ok [] [] [] { e with
      no := update e.no m no
      bookmarks := if e.updateBookmarksIdle then m :: e.bookmarks
        else e.bookmarks.orderedInsert (e.line · ≤ e.line ·) m } := by
  obtain ⟨hm, hbks⟩ : m ∉ e.bookmarks ∧ e.bookmarks.Nodup := by
    simpa using h.listed
  have hperm : (if e.updateBookmarksIdle then m :: e.bookmarks
      else e.bookmarks.orderedInsert (e.line · ≤ e.line ·) m).Perm (m :: e.bookmarks) := by
    split_ifs
    · rfl
    · exact List.perm_orderedInsert ..
  have hlive (a : ℕ) (ha : a ∈ m :: e.bookmarks) : a ∈ e.attached := by
    obtain rfl | ha := List.mem_cons.1 ha
    · exact h.out_live a (by simp)
    · simpa using h.live a ha
  refine ⟨h.nodup, fun a ha => h.lt a (hperm.mem_iff.1 (by simpa using ha)),
    (hperm.nodup_iff).2 h.listed, fun a ha => ?_, by simp, fun a ha => .inl (hlive a ?_), by simp,
    fun a => ?_, by simp, fun hidle => .inl ?_, fun a ha b hb => ?_, fun a ha => ?_⟩
  · exact List.mem_append_right _ (hperm.mem_iff.2 (h.mem a ha))
  · exact hperm.mem_iff.1 ha
  · rw [List.nil_append, hperm.mem_iff]
    exact h.connected a
  · have hinc := (h.sorted hidle).resolve_right (by simp)
    rw [filter_attached fun a ha => hlive a (by simp [ha])] at hinc
    refine increasing_filter (fun a ha => hlive a (hperm.mem_iff.1 ha)) ?_
    have hidle' : e.updateBookmarksIdle = false := hidle
    change Increasing e.line (if e.updateBookmarksIdle then _ else _)
    rw [if_neg (by simp [hidle'])]
    exact Increasing.orderedInsert hinc (h.alone m (by simp))
  · have ha' := hperm.mem_iff.1 ha
    have hb' := hperm.mem_iff.1 hb
    simp only [List.mem_cons] at ha' hb'
    simp only [Function.update_apply]
    have := h.numbers
    grind
  · have ha' := hperm.mem_iff.1 ha
    simp only [Function.update_apply]
    split_ifs with ham
    · exact hlt
    · exact h.no_lt a ((List.mem_cons.1 ha').resolve_left ham)

/-- The number for a new bookmark is one of its own, or is to be found. -/
def FreeNo (e : MooEdit) (no : ℕ) : Prop := no < 10 ∧ (no ≠ 0 → ∀ m ∈ e.bookmarks, e.no m ≠ no)

theorem addBookmark_ok (h : Ok [] [] [] e) (line : ℕ) {no : ℕ} (hno : e.FreeNo no) :
    Ok [] [] [] (e.addBookmark line no) ∧ (line < e.getLineCount →
      (e.addBookmark line no).lineMarksAtLine line ≠ []) := by
  rw [addBookmark]
  split_ifs with hline hzero
  · obtain ⟨hline, hnone⟩ := hline
    rw [getBookmarkAtLine_eq h hline, List.head?_eq_none_iff] at hnone
    obtain ⟨hok, hsame, hlt, hfree⟩ := getUnusedBookmarkNo_spec (h.put hline hnone)
    obtain ⟨hok', hsame'⟩ := bookmarksChanged_ok (hok.list hlt hfree)
    exact ⟨hok', fun _ hnil => getD_put_ne_nil hline _ ((hsame line).1 ((hsame' line).1 hnil))⟩
  · obtain ⟨hline, hnone⟩ := hline
    rw [getBookmarkAtLine_eq h hline, List.head?_eq_none_iff] at hnone
    obtain ⟨hok', hsame'⟩ := bookmarksChanged_ok ((h.put hline hnone).list hno.1 hno.2)
    exact ⟨hok', fun _ hnil => getD_put_ne_nil hline _ ((hsame' line).1 hnil)⟩
  · refine ⟨h, fun hlt hnil => hline ⟨hlt, ?_⟩⟩
    rw [getBookmarkAtLine_eq h hlt, hnil]
    rfl

theorem freeNo_zero (e : MooEdit) : e.FreeNo 0 := ⟨by omega, fun hne => absurd rfl hne⟩

/-- After a line is toggled there is a bookmark on it if there was none or more than one. -/
theorem toggleBookmark_ok (h : Ok [] [] [] e) (line : ℕ) : Ok [] [] [] (e.toggleBookmark line) ∧
    (line < e.getLineCount → ((e.toggleBookmark line).lineMarksAtLine line ≠ [] ↔
      (e.lineMarksAtLine line).length ≠ 1)) := by
  rw [toggleBookmark]
  split_ifs with hline
  · rw [getBookmarkAtLine_eq h hline]
    cases hrow : e.lineMarksAtLine line with
    | nil =>
      obtain ⟨hok, hadd⟩ := addBookmark_ok h line e.freeNo_zero
      exact ⟨hok, fun _ => by simp [hadd hline]⟩
    | cons m l =>
      obtain ⟨hok, hrem⟩ := removeBookmark_ok h m
      have hnd : (m :: l).Nodup := hrow ▸ (h.nodup.sublist (sublist_flatten_getD ..))
      refine ⟨hok, fun _ => ?_⟩
      have hl : l.filter (· ≠ m) = l := List.filter_eq_self.2 fun a ha => by
        have : a ≠ m := by
          rintro rfl
          exact (List.nodup_cons.1 hnd).1 ha
        simpa using this
      rw [List.head?_cons, ne_eq, hrem, hrow, List.filter_cons_of_neg (by simp), hl]
      simp
  · exact ⟨h, fun hlt => absurd hlt hline⟩

/-! ## Runs -/

/-- A call, an edit, or an idle moment. -/
inductive BookmarkOp
  | add (line no : ℕ)
  | remove (bookmark : ℕ)
  | toggle (line : ℕ)
  | list
  | insert (first num : ℕ) (push : Bool)
  | delete (first last : ℕ) (startsLine : Bool)
  | activate (active : Bool)
  | idle

def step (e : MooEdit) : BookmarkOp → MooEdit
  | .add line no => e.addBookmark line no
  | .remove bookmark => e.removeBookmark bookmark
  | .toggle line => e.toggleBookmark line
  | .list => e.listBookmarks.2
  | .insert first num push => e.insertLines first num push
  | .delete first last startsLine => e.deleteLines first last startsLine
  | .activate active => e.activate active
  | .idle => e.updateBookmarksNow

def run (e : MooEdit) (ops : List BookmarkOp) : MooEdit := ops.foldl step e

/-- The numbers that callers ask for themselves are free. -/
def NumbersFree (e : MooEdit) : List BookmarkOp → Prop
  | [] => True
  | op :: ops =>
    (match op with | .add _ no => e.FreeNo no | _ => True) ∧ NumbersFree (e.step op) ops

theorem step_ok (h : Ok [] [] [] e) (op : BookmarkOp)
    (hno : match op with | .add _ no => e.FreeNo no | _ => True) : Ok [] [] [] (e.step op) := by
  cases op with
  | add line no => exact (addBookmark_ok h line hno).1
  | remove bookmark => exact (removeBookmark_ok h bookmark).1
  | toggle line => exact (toggleBookmark_ok h line).1
  | list => exact (updateBookmarksNow_ok h).1
  | insert first num push => exact insertLines_ok h first num push
  | delete first last startsLine => exact deleteLines_ok h first last startsLine
  | activate active => exact (bookmarksChanged_ok (e := { e with active }) { h with }).1
  | idle => exact (updateBookmarksNow_ok h).1

theorem run_ok (ops : List BookmarkOp) (h : Ok [] [] [] e) (hno : e.NumbersFree ops) :
    Ok [] [] [] (e.run ops) := by
  induction ops generalizing e with
  | nil => exact h
  | cons op ops ih => exact ih (step_ok h op hno.1) hno.2

theorem new_ok : Ok [] [] [] new := by
  constructor <;> simp [new, attached, Increasing]

/-- After any calls, edits and idle moments the list has the bookmarks in the buffer, sorted by line
and one for each line that had any; a number is of one of them; and a line that is toggled has a
bookmark if and only if it had none, unless it had several. -/
theorem bookmarks_run (ops : List BookmarkOp) (hno : new.NumbersFree ops) :
    let e := new.run ops
    let (list, e') := e.listBookmarks
    ((∀ m, m ∈ list ↔ m ∈ e'.attached) ∧ list.Pairwise (e'.line · < e'.line ·) ∧
      ∀ line, e'.lineMarksAtLine line ≠ [] ↔ e.lineMarksAtLine line ≠ []) ∧
    (∀ a ∈ e.attached, ∀ b ∈ e.attached, e.no a ≠ 0 → e.no a = e.no b → a = b) ∧
    (∀ a ∈ e.attached, e.no a < 10) ∧
    ∀ line < e.getLineCount,
      (((e.toggleBookmark line).lineMarksAtLine line ≠ [] ↔ e.lineMarksAtLine line = []) ↔
        (e.lineMarksAtLine line).length ≤ 1) := by
  intro e
  have h : Ok [] [] [] e := run_ok ops new_ok hno
  obtain ⟨hok, hsame⟩ := updateBookmarksNow_ok h
  refine ⟨⟨fun m => hok.mem_iff, hok.increasing e.updateBookmarksNow_idle, fun line =>
    not_congr (hsame line)⟩, fun a ha b hb => h.numbers a (h.mem_iff.2 ha) b (h.mem_iff.2 hb),
    fun a ha => h.no_lt a (h.mem_iff.2 ha), fun line hline => ?_⟩
  rw [(toggleBookmark_ok h line).2 hline, ← List.length_eq_zero_iff]
  omega

/-- A bookmark is set and comes to the next line, and another one is set in its place. -/
theorem bookmarks_run_pushed :
    let (list, e) := (new.run [.toggle 0, .insert 0 1 true, .toggle 0]).listBookmarks
    list = [1, 0] ∧ list.Pairwise (e.line · < e.line ·) :=
  ⟨by decide, (bookmarks_run [.toggle 0, .insert 0 1 true, .toggle 0]
    ⟨trivial, trivial, trivial, trivial⟩).1.2.1⟩

/-- Of two bookmarks that an edit has brought to one line, toggling the line removes one. -/
theorem bookmarks_run_merged : ¬ ∀ (ops : List BookmarkOp) (line : ℕ), new.NumbersFree ops →
    line < (new.run ops).getLineCount →
    (((new.run ops).toggleBookmark line).lineMarksAtLine line ≠ [] ↔
      (new.run ops).lineMarksAtLine line = []) := by
  intro h
  have := h [.insert 0 1 false, .toggle 0, .toggle 1, .delete 0 1 false] 0
    ⟨trivial, trivial, trivial, trivial, trivial⟩ (by decide)
  revert this
  decide

end MooEdit

end Medit.Bookmark
